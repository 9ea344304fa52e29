import Mathlib

/-!
# Ordered finite maps

A finite map with its keys kept in order: the shape of an ordered key-value engine, and also of
any finite map whose iteration order does not matter, which can then be enumerated in key order.

The order of the entries is a field of the structure, so a map is determined by its lookups
(`OrdMap.ext_get`) and two scans over a range agree as soon as the lookups in the range agree
(`OrdMap.range_congr`).  Everything else is the usual small API: what `set` and `erase` do to a
lookup, how many keys of a kind there are (`OrdMap.countKeys`), and which entries a bounded scan
visits.
-/

namespace KV

/-- A finite map whose entries are listed in strictly increasing key order. -/
structure OrdMap (κ : Type*) [LinearOrder κ] (α : Type*) where
  entries : List (κ × α)
  sorted : entries.Pairwise fun a b => a.1 < b.1

/-- Strictly ordered lists with the same members are equal. -/
lemma eq_of_pairwise_of_mem_iff {β : Type*} {r : β → β → Prop} (hirr : ∀ a, ¬ r a a)
    (hasym : ∀ a b, r a b → ¬ r b a) {l l' : List β} (hl : l.Pairwise r) (hl' : l'.Pairwise r)
    (h : ∀ a, a ∈ l ↔ a ∈ l') : l = l' := by
  have hnd : ∀ {l : List β}, l.Pairwise r → l.Nodup := fun hp =>
    hp.imp fun {a b} hab => by rintro rfl; exact hirr a hab
  refine List.Perm.eq_of_pairwise (fun a b _ _ hab hba => absurd hba (hasym a b hab)) hl hl' ?_
  exact (List.perm_ext_iff_of_nodup (hnd hl) (hnd hl')).mpr h

namespace OrdMap

variable {κ : Type*} [LinearOrder κ] {α : Type*}

instance [DecidableEq α] : DecidableEq (OrdMap κ α) := fun m m' =>
  decidable_of_iff (m.entries = m'.entries) ⟨fun h => by cases m; cases m'; simp_all,
    fun h => by rw [h]⟩

/-- The map with no entries. -/
def empty : OrdMap κ α := ⟨[], List.Pairwise.nil⟩

instance : EmptyCollection (OrdMap κ α) := ⟨empty⟩

instance : Inhabited (OrdMap κ α) := ⟨empty⟩

/-- Point lookup. -/
def get? (m : OrdMap κ α) (k : κ) : Option α := (m.entries.find? fun e => e.1 = k).map Prod.snd

/-- Insert or overwrite one key. -/
def set (m : OrdMap κ α) (k : κ) (v : α) : OrdMap κ α where
  entries := m.entries.filter (fun e => e.1 < k) ++ (k, v) :: m.entries.filter (fun e => k < e.1)
  sorted := by
    rw [List.pairwise_append, List.pairwise_cons]
    refine ⟨m.sorted.filter _, ⟨?_, m.sorted.filter _⟩, ?_⟩
    · intro e he
      simpa using (List.mem_filter.mp he).2
    · intro a ha b hb
      have ha' : a.1 < k := by simpa using (List.mem_filter.mp ha).2
      rcases List.mem_cons.mp hb with rfl | hb
      · exact ha'
      · exact lt_trans ha' (by simpa using (List.mem_filter.mp hb).2)

/-- Remove one key, present or not. -/
def erase (m : OrdMap κ α) (k : κ) : OrdMap κ α where
  entries := m.entries.filter fun e => e.1 ≠ k
  sorted := m.sorted.filter _

/-- A bounded scan: the entries with `lo ≤ key < hi`, in key order. -/
def range (m : OrdMap κ α) (lo hi : κ) : List (κ × α) :=
  m.entries.filter fun e => lo ≤ e.1 ∧ e.1 < hi

/-! ## Lookups -/

/-- In a list without repeated keys an entry is what its key finds. -/
lemma find?_key_eq_some_iff {l : List (κ × α)} (hl : l.Pairwise fun a b => a.1 ≠ b.1)
    {k : κ} {v : α} :
    (l.find? fun e => e.1 = k).map Prod.snd = some v ↔ (k, v) ∈ l := by
  have hnd : (l.map Prod.fst).Nodup := List.pairwise_map.mpr hl
  constructor
  · intro h
    obtain ⟨e, hf, rfl⟩ := Option.map_eq_some_iff.mp h
    obtain rfl : e.1 = k := by simpa using List.find?_some hf
    exact List.mem_of_find?_eq_some hf
  · intro h
    cases hf : l.find? fun e => e.1 = k with
    | none => simpa using List.find?_eq_none.mp hf (k, v) h
    | some e =>
        have hek : e.1 = k := by simpa using List.find?_some hf
        rw [List.inj_on_of_nodup_map hnd (List.mem_of_find?_eq_some hf) h hek]
        rfl

lemma keys_ne (m : OrdMap κ α) : m.entries.Pairwise fun a b => a.1 ≠ b.1 :=
  m.sorted.imp fun h => ne_of_lt h

/-- An entry is what its key looks up to. -/
theorem mem_entries_iff (m : OrdMap κ α) (k : κ) (v : α) :
    (k, v) ∈ m.entries ↔ m.get? k = some v := (find?_key_eq_some_iff m.keys_ne).symm

/-- A map is determined by its lookups. -/
theorem ext_get {m m' : OrdMap κ α} (h : ∀ k, m.get? k = m'.get? k) : m = m' := by
  have hent : m.entries = m'.entries := by
    refine eq_of_pairwise_of_mem_iff (fun a => lt_irrefl a.1) (fun a b hab => lt_asymm hab)
      m.sorted m'.sorted ?_
    rintro ⟨k, v⟩
    rw [mem_entries_iff, mem_entries_iff, h k]
  cases m
  cases m'
  simp_all

@[simp] lemma get?_empty (k : κ) : (∅ : OrdMap κ α).get? k = none := rfl

lemma get?_set (m : OrdMap κ α) (k : κ) (v : α) (k' : κ) :
    (m.set k v).get? k' = if k' = k then some v else m.get? k' := by
  refine Option.ext fun w => ?_
  rw [← mem_entries_iff]
  simp only [set, List.mem_append, List.mem_filter, List.mem_cons, Prod.mk.injEq,
    decide_eq_true_eq, mem_entries_iff]
  split_ifs with h
  · subst h
    simp [eq_comm]
  · constructor
    · rintro (h' | ⟨h', _⟩ | h')
      · exact h'.1
      · exact absurd h' h
      · exact h'.1
    · intro h'
      rcases lt_or_gt_of_ne h with hlt | hgt
      · exact Or.inl ⟨h', hlt⟩
      · exact Or.inr (Or.inr ⟨h', hgt⟩)

@[simp] lemma get?_set_self (m : OrdMap κ α) (k : κ) (v : α) : (m.set k v).get? k = some v := by
  rw [get?_set, if_pos rfl]

lemma get?_set_of_ne (m : OrdMap κ α) {k k' : κ} (v : α) (h : k' ≠ k) :
    (m.set k v).get? k' = m.get? k' := by
  rw [get?_set, if_neg h]

/-- Storing a value only where there is none. -/
lemma get?_setIfNew (m : OrdMap κ α) (k : κ) (v : α) (k' : κ) :
    (if (m.get? k).isSome then m else m.set k v).get? k' =
      if k' = k then some ((m.get? k).getD v) else m.get? k' := by
  cases h : m.get? k with
  | none => simp [get?_set]
  | some w =>
      simp only [Option.isSome_some, if_true, Option.getD_some]
      split_ifs with hk
      · rw [hk, h]
      · rfl

lemma get?_erase (m : OrdMap κ α) (k k' : κ) :
    (m.erase k).get? k' = if k' = k then none else m.get? k' := by
  refine Option.ext fun w => ?_
  rw [← mem_entries_iff]
  simp only [erase, List.mem_filter, decide_eq_true_eq, mem_entries_iff, ne_eq]
  split_ifs with h <;> simp [h]

@[simp] lemma get?_erase_self (m : OrdMap κ α) (k : κ) : (m.erase k).get? k = none := by
  rw [get?_erase, if_pos rfl]

lemma get?_erase_of_ne (m : OrdMap κ α) {k k' : κ} (h : k' ≠ k) :
    (m.erase k).get? k' = m.get? k' := by
  rw [get?_erase, if_neg h]

lemma mem_keys_iff (m : OrdMap κ α) (k : κ) :
    k ∈ m.entries.map Prod.fst ↔ (m.get? k).isSome := by
  rw [List.mem_map, Option.isSome_iff_exists]
  constructor
  · rintro ⟨⟨k', v⟩, hmem, rfl⟩
    exact ⟨v, (mem_entries_iff m _ v).mp hmem⟩
  · rintro ⟨v, hv⟩
    exact ⟨(k, v), (mem_entries_iff m k v).mpr hv, rfl⟩

/-- A map with as many entries as another one whose keys cover its own has all of those keys. -/
lemma isSome_of_length_eq {β : Type*} {m : OrdMap κ α} {w : OrdMap κ β}
    (hsub : ∀ k, (m.get? k).isSome → (w.get? k).isSome)
    (hlen : m.entries.length = w.entries.length) {k : κ} (hk : (w.get? k).isSome) :
    (m.get? k).isSome := by
  have hnodup : (m.entries.map Prod.fst).Nodup :=
    List.pairwise_map.mpr (m.sorted.imp fun hlt => ne_of_lt hlt)
  have hperm : (m.entries.map Prod.fst).Perm (w.entries.map Prod.fst) := by
    refine (List.subperm_of_subset hnodup fun k hk => ?_).perm_of_length_le (by simp [hlen])
    rw [mem_keys_iff] at hk ⊢
    exact hsub k hk
  rw [← mem_keys_iff] at hk ⊢
  exact hperm.mem_iff.mpr hk

/-! ## Loops of updates -/

/-- Removing the keys of a list of items. -/
lemma get?_foldl_erase {β : Type*} (f : β → κ) (l : List β) (m : OrdMap κ α) (k : κ) :
    (l.foldl (fun m b => m.erase (f b)) m).get? k =
      if ∃ b ∈ l, f b = k then none else m.get? k := by
  induction l generalizing m with
  | nil => simp
  | cons b l ih =>
      rw [List.foldl_cons, ih, get?_erase]
      by_cases hb : f b = k <;> by_cases hl : ∃ b ∈ l, f b = k <;>
        simp_all [eq_comm]

/-- Storing one value under the keys of a list of items. -/
lemma get?_foldl_set {β : Type*} (f : β → κ) (v : α) (l : List β) (m : OrdMap κ α) (k : κ) :
    (l.foldl (fun m b => m.set (f b) v) m).get? k =
      if ∃ b ∈ l, f b = k then some v else m.get? k := by
  induction l generalizing m with
  | nil => simp
  | cons b l ih =>
      rw [List.foldl_cons, ih, get?_set]
      by_cases hb : f b = k <;> by_cases hl : ∃ b ∈ l, f b = k <;>
        simp_all [eq_comm]

/-- The map a list of entries builds, later entries winning. -/
def ofList (l : List (κ × α)) : OrdMap κ α := l.foldl (fun m e => m.set e.1 e.2) ∅

lemma get?_foldl_entries (l : List (κ × α)) (hl : l.Pairwise fun a b => a.1 ≠ b.1)
    (m : OrdMap κ α) (k : κ) :
    (l.foldl (fun m e => m.set e.1 e.2) m).get? k =
      ((l.find? fun e => e.1 = k).map Prod.snd).or (m.get? k) := by
  induction l generalizing m with
  | nil => simp
  | cons e l ih =>
      rw [List.pairwise_cons] at hl
      rw [List.foldl_cons, ih hl.2, List.find?_cons, get?_set]
      by_cases he : e.1 = k
      · have hnone : l.find? (fun e => e.1 = k) = none :=
          List.find?_eq_none.mpr fun x hx => by simpa using (he ▸ hl.1 x hx).symm
        simp [he, hnone]
      · simp [he, Ne.symm he]

/-- A list without repeated keys is looked up as it stands. -/
lemma get?_ofList {l : List (κ × α)} (hl : l.Pairwise fun a b => a.1 ≠ b.1) (k : κ) :
    (ofList l).get? k = (l.find? fun e => e.1 = k).map Prod.snd := by
  rw [ofList, get?_foldl_entries l hl, get?_empty, Option.or_none]

lemma get?_ofList_eq_some_iff {l : List (κ × α)} (hl : l.Pairwise fun a b => a.1 ≠ b.1) {k : κ}
    {v : α} : (ofList l).get? k = some v ↔ (k, v) ∈ l := by
  rw [get?_ofList hl, find?_key_eq_some_iff hl]

/-- Rebuilding a map from its entries gives it back. -/
@[simp] theorem ofList_entries (m : OrdMap κ α) : ofList m.entries = m :=
  ext_get fun k => get?_ofList m.keys_ne k

/-- A list without repeated keys may be taken in any order. -/
lemma ofList_congr {l l' : List (κ × α)} (hl : l.Pairwise fun a b => a.1 ≠ b.1) (h : l'.Perm l) :
    ofList l' = ofList l := by
  have hl' := (h.pairwise_iff fun hne => Ne.symm hne).mpr hl
  refine ext_get fun k => Option.ext fun v => ?_
  rw [get?_ofList_eq_some_iff hl', get?_ofList_eq_some_iff hl]
  exact h.mem_iff

/-- The entries may be taken in any order. -/
theorem ofList_perm {m : OrdMap κ α} {l : List (κ × α)} (h : l.Perm m.entries) : ofList l = m :=
  (ofList_congr m.keys_ne h).trans m.ofList_entries

/-- What is found was in the list. -/
lemma mem_of_get?_ofList {l : List (κ × α)} {k : κ} {v : α} (h : (ofList l).get? k = some v) :
    (k, v) ∈ l := by
  have hgen : ∀ m : OrdMap κ α, (l.foldl (fun m e => m.set e.1 e.2) m).get? k = some v →
      (k, v) ∈ l ∨ m.get? k = some v := by
    clear h
    induction l with
    | nil => exact fun m h => Or.inr h
    | cons e l ih =>
        intro m h
        rcases ih _ h with hmem | hset
        · exact Or.inl (List.mem_cons_of_mem _ hmem)
        · rw [get?_set] at hset
          split_ifs at hset with hk
          · cases hset
            rw [hk]
            exact Or.inl List.mem_cons_self
          · exact Or.inr hset
  exact (hgen ∅ h).resolve_right (by simp)

/-! ## Counting keys -/

lemma nodup_entries (m : OrdMap κ α) : m.entries.Nodup :=
  m.keys_ne.imp fun h heq => h (congrArg Prod.fst heq)

/-- Setting a key adds its entry to those of the other keys. -/
lemma entries_set_perm (m : OrdMap κ α) (k : κ) (v : α) :
    (m.set k v).entries.Perm ((k, v) :: (m.erase k).entries) := by
  have hnew : (k, v) ∉ (m.erase k).entries := by
    rw [mem_entries_iff, get?_erase_self]
    simp
  refine (List.perm_ext_iff_of_nodup (nodup_entries _)
    (List.nodup_cons.mpr ⟨hnew, nodup_entries _⟩)).mpr ?_
  rintro ⟨k', v'⟩
  rw [List.mem_cons, mem_entries_iff, mem_entries_iff, get?_set, get?_erase]
  by_cases h : k' = k
  · subst h
    simp [eq_comm]
  · simp [h]

lemma erase_of_get?_eq_none {m : OrdMap κ α} {k : κ} (h : m.get? k = none) : m.erase k = m := by
  refine ext_get fun k' => ?_
  rw [get?_erase]
  split_ifs with heq
  · rw [heq, h]
  · rfl

lemma set_eq_self {m : OrdMap κ α} {k : κ} {v : α} (h : m.get? k = some v) : m.set k v = m := by
  refine ext_get fun k' => ?_
  rw [get?_set]
  split_ifs with heq
  · rw [heq, h]
  · rfl

/-- The number of keys with a property. -/
def countKeys (m : OrdMap κ α) (p : κ → Bool) : ℕ := m.entries.countP fun e => p e.1

lemma countKeys_set (m : OrdMap κ α) (p : κ → Bool) (k : κ) (v : α) :
    (m.set k v).countKeys p =
      m.countKeys p + if p k = true ∧ m.get? k = none then 1 else 0 := by
  have hset : ∀ v, (m.set k v).countKeys p = (m.erase k).countKeys p + if p k then 1 else 0 := by
    intro v
    rw [countKeys, (entries_set_perm m k v).countP_eq, List.countP_cons]
    rfl
  cases h : m.get? k with
  | none =>
      rw [hset, erase_of_get?_eq_none h]
      simp
  | some w =>
      have hself := hset w
      rw [set_eq_self h] at hself
      rw [hset, hself]
      simp

/-- Storing entries with different keys adds those whose keys are new. -/
lemma countKeys_foldl_entries {l : List (κ × α)} (hl : l.Pairwise fun a b => a.1 ≠ b.1)
    (m : OrdMap κ α) (p : κ → Bool) :
    (l.foldl (fun m e => m.set e.1 e.2) m).countKeys p =
      m.countKeys p + l.countP fun e => p e.1 ∧ m.get? e.1 = none := by
  induction l generalizing m with
  | nil => rfl
  | cons e l ih =>
      obtain ⟨hhead, hl⟩ := List.pairwise_cons.mp hl
      have hsame : l.countP (fun e' => p e'.1 ∧ (m.set e.1 e.2).get? e'.1 = none) =
          l.countP fun e' => p e'.1 ∧ m.get? e'.1 = none := by
        refine List.countP_congr fun e' he' => ?_
        rw [get?_set_of_ne m e.2 (hhead e' he').symm]
      rw [List.foldl_cons, ih hl, hsame, countKeys_set, List.countP_cons]
      simp only [decide_eq_true_eq]
      omega

lemma mem_range_iff (m : OrdMap κ α) (lo hi k : κ) (v : α) :
    (k, v) ∈ m.range lo hi ↔ m.get? k = some v ∧ lo ≤ k ∧ k < hi := by
  simp [range, mem_entries_iff]

lemma range_sorted (m : OrdMap κ α) (lo hi : κ) :
    (m.range lo hi).Pairwise fun a b => a.1 < b.1 :=
  m.sorted.filter _

/-- A scan only depends on the lookups inside its bounds. -/
theorem range_congr {m m' : OrdMap κ α} {lo hi : κ}
    (h : ∀ k, lo ≤ k → k < hi → m.get? k = m'.get? k) : m.range lo hi = m'.range lo hi := by
  refine eq_of_pairwise_of_mem_iff (fun a => lt_irrefl a.1) (fun a b hab => lt_asymm hab)
    (m.range_sorted lo hi) (m'.range_sorted lo hi) ?_
  rintro ⟨k, v⟩
  rw [mem_range_iff, mem_range_iff]
  constructor
  · rintro ⟨hg, hb⟩
    exact ⟨h k hb.1 hb.2 ▸ hg, hb⟩
  · rintro ⟨hg, hb⟩
    exact ⟨(h k hb.1 hb.2).symm ▸ hg, hb⟩

end OrdMap

end KV
