import FlameDB.Go.Utf8

/-!
# The `strings` package

The functions a line protocol is written with: case folding against ASCII keywords, trimming,
splitting, joining and searching.  Strings are byte strings, so each function is defined on bytes;
where Go decodes runes, the few multi-byte encodings that matter are listed.

* `lastIndex_append` — the last occurrence of a text whose first byte does not come back.
* `trimmed_trimSpace` — trimming is complete, so trimming again changes nothing
  (`trimSpace_of_trimmed`).
* `split_intercalate` — splitting undoes joining.
-/

namespace Go

/-- The byte of an ASCII character. -/
def byte (c : Char) : UInt8 := c.toNat.toUInt8

def isDigit (b : UInt8) : Bool := byte '0' ≤ b && b ≤ byte '9'

def upperByte (b : UInt8) : UInt8 := if byte 'a' ≤ b ∧ b ≤ byte 'z' then b - 32 else b

def lowerByte (b : UInt8) : UInt8 := if byte 'A' ≤ b ∧ b ≤ byte 'Z' then b + 32 else b

/-- `strings.ToUpper`, as far as a comparison with ASCII text can tell.  Besides the ASCII letters
only the dotless i (`U+0131`) and the long s (`U+017F`) have an ASCII capital; every other letter
stays outside ASCII and is left as it is. -/
def toUpper : Bytes → Bytes
  | [] => []
  | 0xC4 :: 0xB1 :: rest => byte 'I' :: toUpper rest
  | 0xC5 :: 0xBF :: rest => byte 'S' :: toUpper rest
  | b :: rest => upperByte b :: toUpper rest

/-- Simple case folding, as far as a comparison with ASCII text can tell: the long s (`U+017F`)
folds with `s` and the Kelvin sign (`U+212A`) with `k`. -/
def foldCase : Bytes → Bytes
  | [] => []
  | 0xC5 :: 0xBF :: rest => byte 's' :: foldCase rest
  | 0xE2 :: 0x84 :: 0xAA :: rest => byte 'k' :: foldCase rest
  | b :: rest => lowerByte b :: foldCase rest

/-- `strings.EqualFold` with an ASCII second argument. -/
def equalFold (s t : Bytes) : Bool := foldCase s = foldCase t

/-! ## Trimming -/

/-- The encodings of the runes `unicode.IsSpace` accepts. -/
def spaces : List Bytes :=
  [[0x09], [0x0A], [0x0B], [0x0C], [0x0D], [0x20], [0xC2, 0x85], [0xC2, 0xA0], [0xE1, 0x9A, 0x80],
    [0xE2, 0x80, 0x80], [0xE2, 0x80, 0x81], [0xE2, 0x80, 0x82], [0xE2, 0x80, 0x83],
    [0xE2, 0x80, 0x84], [0xE2, 0x80, 0x85], [0xE2, 0x80, 0x86], [0xE2, 0x80, 0x87],
    [0xE2, 0x80, 0x88], [0xE2, 0x80, 0x89], [0xE2, 0x80, 0x8A], [0xE2, 0x80, 0xA8],
    [0xE2, 0x80, 0xA9], [0xE2, 0x80, 0xAF], [0xE2, 0x81, 0x9F], [0xE3, 0x80, 0x80]]

/-- Drop words of `ws` from the front, at most `fuel` of them. -/
def stripFront (ws : List Bytes) : ℕ → Bytes → Bytes
  | 0, s => s
  | fuel + 1, s =>
      match ws.find? fun w => w.isPrefixOf s with
      | some w => stripFront ws fuel (s.drop w.length)
      | none => s

/-- Drops white space in front. -/
def trimLeft (s : Bytes) : Bytes := stripFront spaces s.length s

/-- Drops white space behind, by the same loop on the reversed text. -/
def trimRight (s : Bytes) : Bytes :=
  (stripFront (spaces.map List.reverse) s.length s.reverse).reverse

/-- `strings.TrimSpace`. -/
def trimSpace (s : Bytes) : Bytes := trimRight (trimLeft s)

lemma stripFront_of_none {ws : List Bytes} {s : Bytes} (h : ∀ w ∈ ws, ¬ w <+: s) (fuel : ℕ) :
    stripFront ws fuel s = s := by
  cases fuel with
  | zero => rfl
  | succ fuel =>
      have hnone : ws.find? (fun w => w.isPrefixOf s) = none := by
        rw [List.find?_eq_none]
        intro w hw
        simpa using h w hw
      rw [stripFront, hnone]

/-- What is left is a suffix, and with enough fuel no word stands at its front. -/
lemma stripFront_spec {ws : List Bytes} (hws : [] ∉ ws) {fuel : ℕ} {s : Bytes}
    (hfuel : s.length ≤ fuel) :
    stripFront ws fuel s <:+ s ∧ ∀ w ∈ ws, ¬ w <+: stripFront ws fuel s := by
  induction fuel generalizing s with
  | zero =>
      obtain rfl : s = [] := List.eq_nil_of_length_eq_zero (by omega)
      refine ⟨List.suffix_refl _, fun w hw hpre => hws ?_⟩
      rwa [List.prefix_nil.mp hpre] at hw
  | succ fuel ih =>
      unfold stripFront
      cases hfind : ws.find? (fun w => w.isPrefixOf s) with
      | none =>
          refine ⟨List.suffix_refl _, fun w hw => ?_⟩
          simpa using List.find?_eq_none.mp hfind w hw
      | some w =>
          have hne : 0 < w.length := List.length_pos_iff.mpr fun h =>
            hws (h ▸ List.mem_of_find?_eq_some hfind)
          have hlen : w.length ≤ s.length :=
            (List.isPrefixOf_iff_prefix.mp (by simpa using List.find?_some hfind)).length_le
          obtain ⟨hsuf, hnone⟩ := ih (s := s.drop w.length) (by simp; omega)
          exact ⟨hsuf.trans (List.drop_suffix _ _), hnone⟩

/-- No space stands at either end. -/
def Trimmed (s : Bytes) : Prop := ∀ w ∈ spaces, ¬ w <+: s ∧ ¬ w <:+ s

instance (s : Bytes) : Decidable (Trimmed s) := inferInstanceAs (Decidable (∀ w ∈ spaces, _))

lemma trimSpace_of_trimmed {s : Bytes} (h : Trimmed s) : trimSpace s = s := by
  have hleft : trimLeft s = s := stripFront_of_none (fun w hw => (h w hw).1) _
  have hright : stripFront (spaces.map List.reverse) s.length s.reverse = s.reverse := by
    refine stripFront_of_none (fun w hw => ?_) _
    obtain ⟨v, hv, rfl⟩ := List.mem_map.mp hw
    rw [List.reverse_prefix]
    exact (h v hv).2
  rw [trimSpace, hleft, trimRight, hright, List.reverse_reverse]

lemma trimLeft_spec (s : Bytes) : trimLeft s <:+ s ∧ ∀ w ∈ spaces, ¬ w <+: trimLeft s :=
  stripFront_spec (by decide) le_rfl

lemma trimRight_spec (s : Bytes) : trimRight s <+: s ∧ ∀ w ∈ spaces, ¬ w <:+ trimRight s := by
  have hlen : s.reverse.length ≤ s.length := s.length_reverse.le
  obtain ⟨hsuf, hnone⟩ := @stripFront_spec (spaces.map List.reverse) (by decide) _ _ hlen
  refine ⟨by simpa [trimRight] using List.reverse_prefix.mpr hsuf, fun w hw hsw => ?_⟩
  refine hnone w.reverse (List.mem_map_of_mem hw) ?_
  simpa [trimRight] using List.reverse_prefix.mpr hsw

/-- A trimmed string is trimmed. -/
theorem trimmed_trimSpace (s : Bytes) : Trimmed (trimSpace s) := by
  obtain ⟨hpre, hright⟩ := trimRight_spec (trimLeft s)
  exact fun w hw => ⟨fun h => (trimLeft_spec s).2 w hw (h.trans hpre), hright w hw⟩

lemma mem_of_mem_trimSpace {s : Bytes} {b : UInt8} (h : b ∈ trimSpace s) : b ∈ s :=
  (trimLeft_spec s).1.mem ((trimRight_spec (trimLeft s)).1.mem h)

lemma tail_of_mem_spaces {w : Bytes} (h : w ∈ spaces) : ∀ b ∈ w.tail, 0x80 ≤ b := by
  have hall : ∀ w ∈ spaces, ∀ b ∈ w.tail, 0x80 ≤ b := by decide +kernel
  exact hall w h

lemma dropLast_of_mem_spaces {w : Bytes} (h : w ∈ spaces) : ∀ b ∈ w.dropLast, 0x80 ≤ b := by
  have hall : ∀ w ∈ spaces, ∀ b ∈ w.dropLast, 0x80 ≤ b := by decide +kernel
  exact hall w h

/-- A space at the front does not reach over an ASCII byte. -/
lemma not_space_prefix_append {s : Bytes} (hne : s ≠ []) (hs : ∀ w ∈ spaces, ¬ w <+: s) {c : UInt8}
    (hc : c < 0x80) (t : Bytes) : ∀ w ∈ spaces, ¬ w <+: s ++ c :: t := by
  intro w hw hpre
  rcases List.prefix_or_prefix_of_prefix hpre (List.prefix_append s _) with h | ⟨u, rfl⟩
  · exact hs w hw h
  · cases u with
    | nil => exact hs s (by simpa using hw) (List.prefix_refl s)
    | cons x u =>
        obtain rfl : x = c := (List.cons_prefix_cons.mp
          ((List.prefix_append_right_inj s).mp hpre)).1
        refine absurd (tail_of_mem_spaces hw x ?_) (UInt8.not_le.mpr hc)
        rw [List.tail_append_of_ne_nil hne]
        simp

/-- A space at the end does not reach over an ASCII byte. -/
lemma not_space_suffix_append {t : Bytes} (hne : t ≠ []) (ht : ∀ w ∈ spaces, ¬ w <:+ t) {c : UInt8}
    (hc : c < 0x80) (s : Bytes) : ∀ w ∈ spaces, ¬ w <:+ s ++ c :: t := by
  intro w hw hsuf
  have hend : t <:+ s ++ c :: t := ⟨s ++ [c], by simp⟩
  rcases List.suffix_or_suffix_of_suffix hsuf hend with h | ⟨u, rfl⟩
  · exact ht w hw h
  · rcases List.eq_nil_or_concat u with rfl | ⟨u, x, rfl⟩
    · exact ht t (by simpa using hw) (List.suffix_refl t)
    · obtain ⟨v, hv⟩ := hsuf
      have hinj : v ++ (u.concat x) = s ++ [c] :=
        List.append_cancel_right (by simpa using hv)
      obtain rfl : x = c := by
        have := congrArg List.getLast? hinj
        simpa using this
      refine absurd (dropLast_of_mem_spaces hw x ?_) (UInt8.not_le.mpr hc)
      rw [List.dropLast_append_of_ne_nil hne]
      simp

lemma Trimmed.append {s t : Bytes} (hs : Trimmed s) (ht : Trimmed t) (hsne : s ≠ []) (htne : t ≠ [])
    {c : UInt8} (hc : c < 0x80) : Trimmed (s ++ c :: t) := fun w hw =>
  ⟨not_space_prefix_append hsne (fun w hw => (hs w hw).1) hc t w hw,
    not_space_suffix_append htne (fun w hw => (ht w hw).2) hc s w hw⟩

/-! ## Cutting and joining -/

/-- `strings.Split` at one byte. -/
def split (sep : UInt8) : Bytes → List Bytes
  | [] => [[]]
  | b :: rest =>
      if b = sep then [] :: split sep rest
      else
        match split sep rest with
        | [] => [[b]]
        | part :: parts => (b :: part) :: parts

lemma split_of_notMem {sep : UInt8} {s : Bytes} (h : sep ∉ s) : split sep s = [s] := by
  induction s with
  | nil => rfl
  | cons b rest ih =>
      simp only [List.mem_cons, not_or] at h
      rw [split, if_neg (Ne.symm h.1), ih h.2]

/-- A part is made of the string's bytes other than the separator. -/
lemma of_mem_of_mem_split {sep b : UInt8} {s part : Bytes} (hpart : part ∈ split sep s)
    (hb : b ∈ part) : b ∈ s ∧ b ≠ sep := by
  induction s generalizing part with
  | nil => simp_all [split]
  | cons x rest ih =>
      unfold split at hpart
      split_ifs at hpart with hx
      · rcases List.mem_cons.mp hpart with rfl | hmem
        · simp at hb
        · exact ⟨List.mem_cons_of_mem _ (ih hmem hb).1, (ih hmem hb).2⟩
      · cases hs : split sep rest with
        | nil =>
            rw [hs] at hpart
            simp_all
        | cons p ps =>
            rw [hs] at ih hpart
            rcases List.mem_cons.mp hpart with rfl | hmem
            · rcases List.mem_cons.mp hb with rfl | hbp
              · exact ⟨List.mem_cons_self, hx⟩
              · exact ⟨List.mem_cons_of_mem _ (ih List.mem_cons_self hbp).1,
                  (ih List.mem_cons_self hbp).2⟩
            · have := ih (List.mem_cons_of_mem _ hmem) hb
              exact ⟨List.mem_cons_of_mem _ this.1, this.2⟩

lemma split_append_of_notMem {sep : UInt8} {l : Bytes} (h : sep ∉ l) (s : Bytes) :
    ∃ p ps, split sep s = p :: ps ∧ split sep (l ++ s) = (l ++ p) :: ps := by
  induction l with
  | nil =>
      cases s with
      | nil => exact ⟨[], [], rfl, rfl⟩
      | cons b s =>
          simp only [List.nil_append, split]
          split_ifs
          · exact ⟨_, _, rfl, rfl⟩
          · cases split sep s <;> exact ⟨_, _, rfl, rfl⟩
  | cons b l ih =>
      simp only [List.mem_cons, not_or] at h
      obtain ⟨p, ps, hp, happ⟩ := ih h.2
      refine ⟨p, ps, hp, ?_⟩
      rw [List.cons_append, split, if_neg (Ne.symm h.1), happ]
      rfl

lemma split_append_sep {sep : UInt8} {a : Bytes} (h : sep ∉ a) (b : Bytes) :
    split sep (a ++ sep :: b) = a :: split sep b := by
  obtain ⟨p, ps, hp, happ⟩ := split_append_of_notMem h (sep :: b)
  rw [split, if_pos rfl] at hp
  obtain ⟨rfl, rfl⟩ := List.cons.inj hp
  rw [happ, List.append_nil]

/-- **Splitting undoes joining** of parts without the separator. -/
lemma split_intercalate {sep : UInt8} {parts : List Bytes} (hne : parts ≠ [])
    (h : ∀ part ∈ parts, sep ∉ part) : split sep ([sep].intercalate parts) = parts := by
  induction parts with
  | nil => exact absurd rfl hne
  | cons part parts ih =>
      obtain ⟨hpart, hparts⟩ := List.forall_mem_cons.mp h
      cases parts with
      | nil => rw [List.intercalate_singleton, split_of_notMem hpart]
      | cons next parts =>
          rw [List.intercalate_cons_cons, List.append_assoc, List.singleton_append,
            split_append_sep hpart,
            ih (List.cons_ne_nil _ _) hparts]

/-- Trimmed parts make a trimmed string. -/
lemma Trimmed.intercalate {sep : UInt8} (hsep : sep < 0x80) {parts : List Bytes} (hne : parts ≠ [])
    (h : ∀ part ∈ parts, Trimmed part ∧ part ≠ []) :
    Trimmed ([sep].intercalate parts) ∧ [sep].intercalate parts ≠ [] := by
  induction parts with
  | nil => exact absurd rfl hne
  | cons part parts ih =>
      obtain ⟨⟨hpart, hpne⟩, hparts⟩ := List.forall_mem_cons.mp h
      cases parts with
      | nil => simpa using And.intro hpart hpne
      | cons next parts =>
          obtain ⟨hrest, hrne⟩ := ih (List.cons_ne_nil _ _) hparts
          rw [List.intercalate_cons_cons, List.append_assoc, List.singleton_append]
          exact ⟨hpart.append hrest hpne hrne hsep, by simp⟩

/-- `strings.SplitN(s, sep, 2)`, as the two sides of the first separator. -/
def cut (sep : UInt8) : Bytes → Option (Bytes × Bytes)
  | [] => none
  | b :: rest => if b = sep then some ([], rest) else (cut sep rest).map fun p => (b :: p.1, p.2)

lemma cut_append {sep : UInt8} {a : Bytes} (h : sep ∉ a) (b : Bytes) :
    cut sep (a ++ sep :: b) = some (a, b) := by
  induction a with
  | nil => simp [cut]
  | cons x a ih =>
      rw [List.mem_cons, not_or] at h
      rw [List.cons_append, cut, if_neg (Ne.symm h.1), ih h.2]
      rfl

lemma cut_of_notMem {sep : UInt8} {s : Bytes} (h : sep ∉ s) : cut sep s = none := by
  induction s with
  | nil => rfl
  | cons x s ih =>
      rw [List.mem_cons, not_or] at h
      rw [cut, if_neg (Ne.symm h.1), ih h.2]
      rfl

/-- `strings.Join(parts, " ")`. -/
def joinSpace : List Bytes → Bytes
  | [] => []
  | [s] => s
  | s :: t :: rest => s ++ byte ' ' :: joinSpace (t :: rest)

lemma joinSpace_concat {ws : List Bytes} (h : ws ≠ []) (w : Bytes) :
    joinSpace (ws ++ [w]) = joinSpace ws ++ byte ' ' :: w := by
  induction ws with
  | nil => exact absurd rfl h
  | cons v ws ih =>
      cases ws with
      | nil => rfl
      | cons u ws =>
          simp only [List.cons_append, joinSpace] at ih ⊢
          rw [ih (List.cons_ne_nil u ws), List.append_assoc]
          rfl

lemma mem_joinSpace {ws : List Bytes} {b : UInt8} (h : b ∈ joinSpace ws) :
    b = byte ' ' ∨ ∃ w ∈ ws, b ∈ w := by
  induction ws with
  | nil => simp [joinSpace] at h
  | cons v ws ih =>
      cases ws with
      | nil => exact Or.inr ⟨v, by simp, h⟩
      | cons u ws =>
          simp only [joinSpace, List.mem_append, List.mem_cons] at h
          rcases h with h | h | h
          · exact Or.inr ⟨v, by simp, h⟩
          · exact Or.inl h
          · refine (ih h).imp_right ?_
            rintro ⟨w, hw, hb⟩
            exact ⟨w, List.mem_cons_of_mem _ hw, hb⟩

/-- `strings.Contains`. -/
def contains (s sub : Bytes) : Bool := s.tails.any fun t => sub.isPrefixOf t

/-! ## The last occurrence -/

/-- `strings.LastIndex`, `none` for `-1`. -/
def lastIndex (sub : Bytes) : Bytes → Option ℕ
  | [] => if sub = [] then some 0 else none
  | b :: rest =>
      match lastIndex sub rest with
      | some i => some (i + 1)
      | none => if sub.isPrefixOf (b :: rest) then some 0 else none

/-- The text stands where it was found. -/
lemma lastIndex_spec {sub s : Bytes} {i : ℕ} (h : lastIndex sub s = some i) :
    s = s.take i ++ sub ++ s.drop (i + sub.length) := by
  induction s generalizing i with
  | nil =>
      unfold lastIndex at h
      split_ifs at h with hsub
      obtain rfl : 0 = i := by simpa using h
      simp [hsub]
  | cons b rest ih =>
      unfold lastIndex at h
      cases hrest : lastIndex sub rest with
      | some j =>
          simp only [hrest, Option.some.injEq] at h
          subst h
          have := ih hrest
          rw [show j + 1 + sub.length = (j + sub.length) + 1 by omega]
          simpa using this
      | none =>
          simp only [hrest] at h
          split_ifs at h with hpre
          obtain rfl : 0 = i := by simpa using h
          obtain ⟨t, ht⟩ := List.isPrefixOf_iff_prefix.mp hpre
          simp [← ht]

lemma lastIndex_eq_none {c : UInt8} {sub s : Bytes} (h : c ∉ s) :
    lastIndex (c :: sub) s = none := by
  induction s with
  | nil => rfl
  | cons b rest ih =>
      simp only [List.mem_cons, not_or] at h
      simp [lastIndex, ih h.2, List.isPrefixOf, h.1]

/-- **The last occurrence** of a text whose first byte does not come back after it. -/
theorem lastIndex_append {c : UInt8} {sub t : Bytes} (hsub : c ∉ sub) (ht : c ∉ t) (s : Bytes) :
    lastIndex (c :: sub) (s ++ c :: sub ++ t) = some s.length := by
  induction s with
  | nil =>
      have hnone : lastIndex (c :: sub) (sub ++ t) = none :=
        lastIndex_eq_none (by simp [hsub, ht])
      simp [lastIndex, hnone]
  | cons b s ih =>
      simp only [List.append_assoc, List.cons_append] at ih ⊢
      simp [lastIndex, ih]

end Go
