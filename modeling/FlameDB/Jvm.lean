import FlameDB.Go.Utf8

/-!
# Strings and maps of the Java virtual machine

A string is a sequence of 16-bit units.  A character above `U+FFFF` takes two of them, a high and a
low surrogate, but nothing keeps a program from making a string in which a surrogate stands alone.
`getBytes(UTF_8)` writes a question mark for such a unit.

* `replaceLone` — the string with its lone surrogates replaced; `WellFormed` strings have none.
* `decodeUtf8_getBytes` — what the strict decoder reads back from the bytes.
* `replaceLone_append` — pieces of text that do not end in a high surrogate are replaced piece by
  piece.
* `LinkedHashMap` — a map that keeps the order in which its keys were put.
-/

namespace Jvm

open Go

/-- A JVM string is a list of UTF-16 code units. -/
abbrev Utf16 := List UInt16

def isHigh (u : UInt16) : Bool := 0xD800 ≤ u && u < 0xDC00

def isLow (u : UInt16) : Bool := 0xDC00 ≤ u && u < 0xE000

def isSurrogate (u : UInt16) : Bool := isHigh u || isLow u

/-- A text of ASCII bytes. -/
def ascii (b : Bytes) : Utf16 := b.map UInt8.toUInt16

def questionMark : UInt16 := 0x3F

/-- A unit that is not part of a pair. -/
def single (u : UInt16) : UInt16 := if isSurrogate u then questionMark else u

/-- Replaces every lone surrogate by a question mark. -/
def replaceLone : Utf16 → Utf16
  | [] => []
  | [u] => [single u]
  | u :: v :: rest =>
      if isHigh u && isLow v then u :: v :: replaceLone rest else single u ::
        replaceLone (v :: rest)

/-- No surrogate stands alone. -/
def WellFormed (s : Utf16) : Prop := replaceLone s = s

instance (s : Utf16) : Decidable (WellFormed s) := inferInstanceAs (Decidable (_ = _))

/-! ## Replacing -/

lemma isHigh_single (u : UInt16) : isHigh (single u) = false := by
  unfold single
  split_ifs with h
  · decide
  · simp only [isSurrogate, Bool.or_eq_true, not_or, Bool.not_eq_true] at h
    exact h.1

lemma single_single (u : UInt16) : single (single u) = single u := by
  by_cases h : isSurrogate u = true
  · have hmark : single u = questionMark := if_pos h
    rw [hmark]
    decide
  · have hself : single u = u := if_neg h
    rw [hself, hself]

lemma replaceLone_cons {u : UInt16} (h : isHigh u = false) (s : Utf16) :
    replaceLone (u :: s) = single u :: replaceLone s := by
  cases s with
  | nil => rfl
  | cons v s => rw [replaceLone, h, Bool.false_and, if_neg Bool.false_ne_true]

/-- A unit that the next one does not complete. -/
lemma replaceLone_cons_of_head {u : UInt16} {s : Utf16} (h : ∀ v ∈ s.head?, isLow v = false) :
    replaceLone (u :: s) = single u :: replaceLone s := by
  cases s with
  | nil => rfl
  | cons v s =>
      have hv : isLow v = false := h v rfl
      rw [replaceLone, hv, Bool.and_false, if_neg Bool.false_ne_true]

lemma replaceLone_pair {u v : UInt16} (hu : isHigh u = true) (hv : isLow v = true) (s : Utf16) :
    replaceLone (u :: v :: s) = u :: v :: replaceLone s := by
  rw [replaceLone, hu, hv, Bool.and_self, if_pos rfl]

lemma replaceLone_lone {u v : UInt16} (h : (isHigh u && isLow v) = false) (s : Utf16) :
    replaceLone (u :: v :: s) = single u :: replaceLone (v :: s) := by
  rw [replaceLone, h, if_neg Bool.false_ne_true]

/-- The cases of the replacement: the end, a last unit, a pair, a unit that starts none. -/
theorem utf16_induction {P : Utf16 → Prop} (nil : P []) (last : ∀ u, P [u])
    (pair : ∀ u v s, isHigh u = true → isLow v = true → P s → P (u :: v :: s))
    (lone : ∀ u v s, (isHigh u && isLow v) = false → P (v :: s) → P (u :: v :: s)) (s : Utf16) :
    P s := by
  induction s using replaceLone.induct with
  | case1 => exact nil
  | case2 u => exact last u
  | case3 u v s h ih =>
      obtain ⟨hu, hv⟩ := Bool.and_eq_true_iff.mp h
      exact pair u v s hu hv ih
  | case4 u v s h ih => exact lone u v s (by simpa using h) ih

/-- Replacing leaves nothing to replace. -/
lemma wellFormed_replaceLone (s : Utf16) : WellFormed (replaceLone s) := by
  induction s using utf16_induction with
  | nil => rfl
  | last u =>
      show replaceLone [single u] = [single u]
      rw [replaceLone, single_single]
  | pair u v s hu hv ih =>
      rw [WellFormed, replaceLone_pair hu hv, replaceLone_pair hu hv, ih]
  | lone u v s h ih =>
      rw [WellFormed, replaceLone_lone h, replaceLone_cons (isHigh_single u), single_single, ih]

/-- Text without surrogates. -/
def Plain (s : Utf16) : Prop := ∀ u ∈ s, isSurrogate u = false

instance (s : Utf16) : Decidable (Plain s) :=
  List.decidableBAll (fun u => isSurrogate u = false) s

lemma isSurrogate_toUInt16 (b : UInt8) : isSurrogate b.toUInt16 = false := by
  have hb := b.toNat_lt
  simp only [isSurrogate, isHigh, isLow, Bool.or_eq_false_iff, Bool.and_eq_false_iff,
    decide_eq_false_iff_not, UInt16.le_iff_toNat_le, UInt16.lt_iff_toNat_lt, UInt16.toNat_ofNat]
  norm_num at hb ⊢
  omega

lemma plain_ascii (b : Bytes) : Plain (ascii b) := by
  intro u hu
  obtain ⟨x, -, rfl⟩ := List.mem_map.mp hu
  exact isSurrogate_toUInt16 x

lemma replaceLone_plain_append {s : Utf16} (h : Plain s) (t : Utf16) :
    replaceLone (s ++ t) = s ++ replaceLone t := by
  induction s with
  | nil => rfl
  | cons u s ih =>
      obtain ⟨hu, hs⟩ := List.forall_mem_cons.mp h
      have hhigh : isHigh u = false := (Bool.or_eq_false_iff.mp hu).1
      have hself : single u = u := by rw [single, hu, if_neg Bool.false_ne_true]
      rw [List.cons_append, replaceLone_cons hhigh, hself, ih hs, List.cons_append]

/-- Back from ASCII text to its bytes. -/
def toAscii (s : Utf16) : Bytes := s.map UInt16.toUInt8

@[simp] lemma toAscii_ascii (b : Bytes) : toAscii (ascii b) = b := by
  rw [toAscii, ascii, List.map_map]
  exact (List.map_congr_left fun x _ => UInt8.toUInt8_toUInt16 x).trans (List.map_id b)

/-! ## UTF-8 -/

/-- The character of a pair of surrogates. -/
def ofPair (u v : UInt16) : Char :=
  Char.ofNat (0x10000 + (u.toNat - 0xD800) * 0x400 + (v.toNat - 0xDC00))

/-- The characters a string is written as. -/
def scalars : Utf16 → List Char
  | [] => []
  | [u] => [Char.ofNat (single u).toNat]
  | u :: v :: rest =>
      if isHigh u && isLow v then ofPair u v :: scalars rest
      else Char.ofNat (single u).toNat :: scalars (v :: rest)

/-- The units of a character. -/
def units (c : Char) : Utf16 :=
  if c.toNat < 0x10000 then [UInt16.ofNat c.toNat]
  else [UInt16.ofNat (0xD800 + (c.toNat - 0x10000) / 0x400),
    UInt16.ofNat (0xDC00 + (c.toNat - 0x10000) % 0x400)]

/-- `String.getBytes(UTF_8)`. -/
def getBytes (s : Utf16) : Bytes := encodeRunes (scalars s)

/-- The decoder that reports malformed input. -/
def decodeUtf8 (b : Bytes) : Option Utf16 :=
  if toValidUtf8 b = b then some ((runes b).flatMap units) else none

lemma toNat_single_lt (u : UInt16) : (single u).toNat < 0xD800 ∨
    0xDFFF < (single u).toNat ∧ (single u).toNat < 0x110000 := by
  have hu := u.toNat_lt
  unfold single
  split_ifs with h
  · left
    decide
  · simp only [isSurrogate, isHigh, isLow, Bool.or_eq_true, Bool.and_eq_true, decide_eq_true_eq,
      UInt16.le_iff_toNat_le, UInt16.lt_iff_toNat_lt, UInt16.toNat_ofNat] at h
    norm_num at h hu
    omega

lemma units_single (u : UInt16) : units (Char.ofNat (single u).toNat) = [single u] := by
  have hval : (Char.ofNat (single u).toNat).toNat = (single u).toNat := by
    rw [Char.toNat_ofNat, if_pos (toNat_single_lt u)]
  have hlt := (single u).toNat_lt
  rw [units, hval, if_pos (by norm_num at hlt ⊢; exact hlt), UInt16.ofNat_toNat]

lemma units_ofPair {u v : UInt16} (hu : isHigh u = true) (hv : isLow v = true) :
    units (ofPair u v) = [u, v] := by
  simp only [isHigh, isLow, Bool.and_eq_true, decide_eq_true_eq, UInt16.le_iff_toNat_le,
    UInt16.lt_iff_toNat_lt, UInt16.toNat_ofNat] at hu hv
  norm_num at hu hv
  have hval : (ofPair u v).toNat = 0x10000 + (u.toNat - 0xD800) * 0x400 + (v.toNat - 0xDC00) := by
    rw [ofPair, Char.toNat_ofNat, if_pos (Or.inr (by constructor <;> omega))]
  rw [units, hval, if_neg (by omega)]
  have h1 : 0xD800 + (0x10000 + (u.toNat - 0xD800) * 0x400 + (v.toNat - 0xDC00) - 0x10000) / 0x400 =
      u.toNat := by omega
  have h2 : 0xDC00 + (0x10000 + (u.toNat - 0xD800) * 0x400 + (v.toNat - 0xDC00) - 0x10000) % 0x400 =
      v.toNat := by omega
  rw [h1, h2, UInt16.ofNat_toNat, UInt16.ofNat_toNat]

/-- Through code points and back, lone surrogates apart. -/
lemma units_scalars (s : Utf16) : (scalars s).flatMap units = replaceLone s := by
  induction s using utf16_induction with
  | nil => rfl
  | last u =>
      rw [scalars, List.flatMap_singleton, units_single]
      rfl
  | pair u v s hu hv ih =>
      rw [scalars, hu, hv, Bool.and_self, if_pos rfl, List.flatMap_cons, units_ofPair hu hv, ih,
        replaceLone_pair hu hv]
      rfl
  | lone u v s h ih =>
      rw [scalars, h, if_neg Bool.false_ne_true, List.flatMap_cons, units_single, ih,
        replaceLone_lone h]
      rfl

/-- **What is read back from the bytes of a string.** -/
theorem decodeUtf8_getBytes (s : Utf16) : decodeUtf8 (getBytes s) = some (replaceLone s) := by
  have hvalid : toValidUtf8 (getBytes s) = getBytes s := ValidUtf8.toValid ⟨scalars s, rfl⟩
  rw [decodeUtf8, if_pos hvalid, getBytes, runes_encodeRunes, units_scalars]

/-! ## Maps that keep the order of insertion

Equal maps may differ in their order, and printing shows it. -/

/-- `LinkedHashMap`. -/
structure LinkedHashMap (K V : Type) where
  entries : List (K × V)
  nodup : (entries.map Prod.fst).Nodup
  deriving DecidableEq

namespace LinkedHashMap

variable {K V : Type} [DecidableEq K]

/-- A key that is there keeps its place and takes the new value. -/
def putEntry (k : K) (v : V) : List (K × V) → List (K × V)
  | [] => [(k, v)]
  | p :: rest => if p.1 = k then (k, v) :: rest else p :: putEntry k v rest

lemma mem_putEntry {k : K} {v : V} {l : List (K × V)} {p : K × V} (h : p ∈ putEntry k v l) :
    p = (k, v) ∨ p ∈ l := by
  induction l with
  | nil => exact Or.inl (List.mem_singleton.mp h)
  | cons q l ih =>
      rw [putEntry] at h
      split_ifs at h with hq
      · exact (List.mem_cons.mp h).imp_right (List.mem_cons_of_mem q)
      · rcases List.mem_cons.mp h with rfl | h
        · exact Or.inr List.mem_cons_self
        · exact (ih h).imp_right (List.mem_cons_of_mem q)

lemma putEntry_of_notMem {k : K} {v : V} {l : List (K × V)} (h : k ∉ l.map Prod.fst) :
    putEntry k v l = l ++ [(k, v)] := by
  induction l with
  | nil => rfl
  | cons q l ih =>
      rw [List.map_cons, List.mem_cons, not_or] at h
      rw [putEntry, if_neg (Ne.symm h.1), ih h.2, List.cons_append]

lemma nodup_putEntry {k : K} {v : V} {l : List (K × V)} (h : (l.map Prod.fst).Nodup) :
    ((putEntry k v l).map Prod.fst).Nodup := by
  induction l with
  | nil => exact List.nodup_singleton k
  | cons q l ih =>
      obtain ⟨hq, hl⟩ := List.nodup_cons.mp h
      rw [putEntry]
      split_ifs with hk
      · subst hk
        exact h
      · refine List.nodup_cons.mpr ⟨fun hmem => ?_, ih hl⟩
        obtain ⟨p, hp, hpq⟩ := List.mem_map.mp hmem
        rcases mem_putEntry hp with rfl | hp
        · exact hk hpq.symm
        · exact hq (hpq ▸ List.mem_map_of_mem hp)

/-- Puts an entry; an old key keeps its place. -/
def put (m : LinkedHashMap K V) (p : K × V) : LinkedHashMap K V :=
  ⟨putEntry p.1 p.2 m.entries, nodup_putEntry m.nodup⟩

def empty : LinkedHashMap K V := ⟨[], List.nodup_nil⟩

/-- The map into which these entries were put in turn. -/
def ofList (l : List (K × V)) : LinkedHashMap K V := l.foldl put empty

lemma entries_foldl_put {m : LinkedHashMap K V} {l : List (K × V)}
    (h : ((m.entries ++ l).map Prod.fst).Nodup) : (l.foldl put m).entries = m.entries ++ l := by
  induction l generalizing m with
  | nil => exact (List.append_nil m.entries).symm
  | cons p l ih =>
      have hp : p.1 ∉ m.entries.map Prod.fst := by
        rw [List.map_append, List.map_cons] at h
        exact fun hmem => (List.disjoint_of_nodup_append h) hmem List.mem_cons_self
      have hput : (m.put p).entries = m.entries ++ [p] := putEntry_of_notMem hp
      rw [List.foldl_cons, ih (by rwa [hput, List.append_assoc, List.singleton_append]), hput,
        List.append_assoc, List.singleton_append]

@[simp] lemma ofList_entries (m : LinkedHashMap K V) : ofList m.entries = m := by
  have h : (ofList m.entries).entries = m.entries := by
    have hfold := @entries_foldl_put K V _ empty m.entries m.nodup
    exact hfold
  cases hm : ofList m.entries
  rw [hm] at h
  cases m
  simpa using h

lemma mem_foldl_put {m : LinkedHashMap K V} {l : List (K × V)} {p : K × V}
    (h : p ∈ (l.foldl put m).entries) : p ∈ m.entries ∨ p ∈ l := by
  induction l generalizing m with
  | nil => exact Or.inl h
  | cons q l ih =>
      rcases ih h with h | h
      · rcases mem_putEntry h with rfl | h
        · exact Or.inr List.mem_cons_self
        · exact Or.inl h
      · exact Or.inr (List.mem_cons_of_mem q h)

lemma mem_ofList {l : List (K × V)} {p : K × V} (h : p ∈ (ofList l).entries) : p ∈ l :=
  (mem_foldl_put h).resolve_left List.not_mem_nil

end LinkedHashMap

end Jvm
