import FlameDB.Client.JournalFormat
import FlameDB.Jvm
import FlameDB.Go.Time

/-!
# The JSON text of a journal entry

The write journal keeps its entries as JSON in UTF-8.  The serializer writes the fields in the order
of the class and escapes quotes, backslashes and control characters; every other unit of a string
stands as it is, a lone surrogate too, and that one is lost when the text becomes bytes.

* `encodeToString`, `decodeFromString` — the text of an entry, and the reader of such texts.
* `decodeEntry_encodeEntry` — what is read back from the bytes of an entry: the entry with its lone
  surrogates replaced.
* `JournalWrite.replaced_eq_self` — which is the entry itself exactly for well-formed strings.
* `entryCodec` — admission, text and reader together; `faithful_entryCodec` says for which entries
  they agree.
-/

namespace FlameDB.Client

open Go Jvm

/-- `JournalWrite`; a map keeps the order of its entries. -/
structure JournalWrite where
  id : Utf16
  metric : Utf16
  value : Float64
  leaderboardEntity : Option Utf16
  tags : LinkedHashMap Utf16 Utf16
  timestampNs : Int64
  quorum : Bool
  leaderboardEntities : LinkedHashMap Utf16 Utf16
  deriving DecidableEq

/-- The texts of the doubles: `toString` and `toDouble` agree on finite values. -/
structure DoubleText where
  toText : Float64 → Bytes
  ofText : Bytes → Option Float64
  ofText_toText : ∀ x, x.isFinite = true → ofText (toText x) = some x
  comma_notMem : ∀ x, x.isFinite = true → byte ',' ∉ toText x

/-- The keys and values of a map. -/
def mapStrings (m : LinkedHashMap Utf16 Utf16) : List Utf16 := m.entries.flatMap fun p => [p.1, p.2]

/-- The strings of an entry. -/
def JournalWrite.strings (e : JournalWrite) : List Utf16 :=
  e.id :: e.metric :: e.leaderboardEntity.toList ++
    (mapStrings e.tags ++ mapStrings e.leaderboardEntities)

/-- No string of the entry has a lone surrogate. -/
def JournalWrite.WellFormed (e : JournalWrite) : Prop := ∀ s ∈ e.strings, Jvm.WellFormed s

instance (e : JournalWrite) : Decidable e.WellFormed := inferInstanceAs (Decidable (∀ _ ∈ _, _))

def replacePair (p : Utf16 × Utf16) : Utf16 × Utf16 := (replaceLone p.1, replaceLone p.2)

/-- Keys that become equal share the place of the first and the value of the last. -/
def replaceMap (m : LinkedHashMap Utf16 Utf16) : LinkedHashMap Utf16 Utf16 :=
  LinkedHashMap.ofList (m.entries.map replacePair)

/-- The entry with its lone surrogates replaced. -/
def JournalWrite.replaced (e : JournalWrite) : JournalWrite :=
  { e with
    id := replaceLone e.id
    metric := replaceLone e.metric
    leaderboardEntity := e.leaderboardEntity.map replaceLone
    tags := replaceMap e.tags
    leaderboardEntities := replaceMap e.leaderboardEntities }

lemma wellFormed_of_mem_replaceMap {m : LinkedHashMap Utf16 Utf16} {s : Utf16}
    (h : s ∈ mapStrings (replaceMap m)) : Jvm.WellFormed s := by
  obtain ⟨p, hp, hs⟩ := List.mem_flatMap.mp h
  obtain ⟨q, -, rfl⟩ := List.mem_map.mp (LinkedHashMap.mem_ofList hp)
  rcases List.mem_pair.mp hs with rfl | rfl
  · exact wellFormed_replaceLone q.1
  · exact wellFormed_replaceLone q.2

lemma JournalWrite.wellFormed_replaced (e : JournalWrite) : e.replaced.WellFormed := by
  intro s hs
  simp only [strings, replaced, List.cons_append, List.mem_cons, List.mem_append] at hs
  rcases hs with rfl | rfl | hs | hs | hs
  · exact wellFormed_replaceLone e.id
  · exact wellFormed_replaceLone e.metric
  · obtain ⟨t, -, rfl⟩ := Option.mem_map.mp (Option.mem_toList.mp hs)
    exact wellFormed_replaceLone t
  · exact wellFormed_of_mem_replaceMap hs
  · exact wellFormed_of_mem_replaceMap hs

lemma replaceMap_eq_self {m : LinkedHashMap Utf16 Utf16}
    (h : ∀ s ∈ mapStrings m, Jvm.WellFormed s) : replaceMap m = m := by
  have hmap : m.entries.map replacePair = m.entries := by
    refine (List.map_congr_left fun p hp => ?_).trans (List.map_id m.entries)
    have h1 : replaceLone p.1 = p.1 := h p.1 (List.mem_flatMap.mpr ⟨p, hp, by simp⟩)
    have h2 : replaceLone p.2 = p.2 := h p.2 (List.mem_flatMap.mpr ⟨p, hp, by simp⟩)
    rw [replacePair, h1, h2]
    rfl
  rw [replaceMap, hmap, LinkedHashMap.ofList_entries]

/-- **Replacing changes exactly the entries with a lone surrogate.** -/
theorem JournalWrite.replaced_eq_self (e : JournalWrite) : e.replaced = e ↔ e.WellFormed := by
  refine ⟨fun h => h ▸ e.wellFormed_replaced, fun h => ?_⟩
  have hid : replaceLone e.id = e.id := h _ (by simp [strings])
  have hmetric : replaceLone e.metric = e.metric := h _ (by simp [strings])
  have htags : replaceMap e.tags = e.tags :=
    replaceMap_eq_self fun s hs => h s (by simp [strings, hs])
  have hboards : replaceMap e.leaderboardEntities = e.leaderboardEntities :=
    replaceMap_eq_self fun s hs => h s (by simp [strings, hs])
  have hentity : e.leaderboardEntity.map replaceLone = e.leaderboardEntity := by
    cases hsome : e.leaderboardEntity with
    | none => rfl
    | some t => exact congrArg some (h t (by simp [strings, hsome]))
  rw [replaced, hid, hmetric, htags, hboards, hentity]

/-! ## Strings -/

def quoteMark : UInt16 := 0x22

def backslash : UInt16 := 0x5C

def comma : UInt16 := 0x2C

def openBrace : UInt16 := 0x7B

def closeBrace : UInt16 := 0x7D

/-- The characters that have an escape of two characters, and the second one. -/
def shortEscapes : List (UInt16 × UInt16) :=
  [(0x22, 0x22), (0x5C, 0x5C), (0x08, 0x62), (0x09, 0x74), (0x0A, 0x6E), (0x0C, 0x66), (0x0D, 0x72)]

def hexDigit (n : UInt16) : UInt16 := if n < 10 then 0x30 + n else 0x57 + n

def hexValue (u : UInt16) : Option UInt16 :=
  if 0x30 ≤ u && u < 0x3A then some (u - 0x30)
  else if 0x61 ≤ u && u < 0x67 then some (u - 0x57)
  else none

/-- The unit of four hexadecimal digits. -/
def hexUnit (a b c d : UInt16) : Option UInt16 := do
  let a ← hexValue a
  let b ← hexValue b
  let c ← hexValue c
  let d ← hexValue d
  some (((a * 16 + b) * 16 + c) * 16 + d)

/-- A unit inside a string. -/
def escape (u : UInt16) : Utf16 :=
  match shortEscapes.find? fun p => p.1 = u with
  | some p => [backslash, p.2]
  | none =>
      if u < 0x20 then [backslash, 0x75, 0x30, 0x30, hexDigit (u / 16), hexDigit (u % 16)] else [u]

/-- The unit of an escape of two characters. -/
def unescape (c : UInt16) : Option UInt16 := (shortEscapes.find? fun p => p.2 = c).map Prod.fst

/-- A quoted string. -/
def printString (s : Utf16) : Utf16 := quoteMark :: (s.flatMap escape ++ [quoteMark])

/-- The rest of a string and what is behind it. -/
def readChars : Utf16 → Option (Utf16 × Utf16)
  | [] => none
  | u :: rest =>
      if u = quoteMark then some ([], rest)
      else if u = backslash then
        match rest with
        | [] => none
        | c :: rest =>
            if c = 0x75 then
              match rest with
              | a :: b :: c :: d :: rest =>
                  (hexUnit a b c d).bind fun v => (readChars rest).map fun p => (v :: p.1, p.2)
              | _ => none
            else (unescape c).bind fun v => (readChars rest).map fun p => (v :: p.1, p.2)
      else (readChars rest).map fun p => (u :: p.1, p.2)

/-- Behind a literal. -/
def expect (lit s : Utf16) : Option Utf16 :=
  if lit <+: s then some (s.drop lit.length) else none

/-- Reads a quoted string and returns the text behind it. -/
def readString (s : Utf16) : Option (Utf16 × Utf16) := (expect [quoteMark] s).bind readChars

/-- The escapes of a unit: a short one, a control character, or none. -/
lemma escape_cases (u : UInt16) :
    (∃ c, escape u = [backslash, c] ∧ unescape c = some u ∧ c ≠ 0x75 ∧ u < 0x80) ∨
      (u < 0x20 ∧ escape u = [backslash, 0x75, 0x30, 0x30, hexDigit (u / 16), hexDigit (u % 16)]) ∨
      (escape u = [u] ∧ u ≠ quoteMark ∧ u ≠ backslash) := by
  unfold escape
  cases hfind : shortEscapes.find? fun p => p.1 = u with
  | some p =>
      have hmem := List.mem_of_find?_eq_some hfind
      have hkey : p.1 = u := by simpa using List.find?_some hfind
      have htable : ∀ p ∈ shortEscapes, unescape p.2 = some p.1 ∧ p.2 ≠ 0x75 ∧ p.1 < 0x80 :=
        List.forall_iff_forall_mem.mp (by decide +kernel)
      obtain ⟨h1, h2, h3⟩ := htable p hmem
      exact Or.inl ⟨p.2, rfl, hkey ▸ h1, h2, hkey ▸ h3⟩
  | none =>
      have hnone := List.find?_eq_none.mp hfind
      right
      dsimp only
      split_ifs with hlow
      · exact Or.inl ⟨hlow, rfl⟩
      · refine Or.inr ⟨rfl, fun h => ?_, fun h => ?_⟩
        · exact hnone (0x22, 0x22) (by decide) (by simp [h, quoteMark])
        · exact hnone (0x5C, 0x5C) (by decide) (by simp [h, backslash])

lemma hexUnit_control {u : UInt16} (h : u < 0x20) :
    hexUnit 0x30 0x30 (hexDigit (u / 16)) (hexDigit (u % 16)) = some u := by
  have hall : ∀ n < 32, hexUnit 0x30 0x30 (hexDigit (UInt16.ofNat n / 16))
      (hexDigit (UInt16.ofNat n % 16)) = some (UInt16.ofNat n) := by decide +kernel
  have hu := hall u.toNat (by simpa [UInt16.lt_iff_toNat_lt] using h)
  rwa [UInt16.ofNat_toNat] at hu

/-- Every escape is read as the unit it stands for. -/
lemma readChars_escape (u : UInt16) (rest : Utf16) :
    readChars (escape u ++ rest) = (readChars rest).map fun p => (u :: p.1, p.2) := by
  have hslash : ¬ backslash = quoteMark := by decide
  rcases escape_cases u with ⟨c, hu, hc, hne, -⟩ | ⟨hlow, hu⟩ | ⟨hu, hq, hb⟩
  · rw [hu, List.cons_append, List.singleton_append, readChars.eq_def]
    simp only [if_neg hslash, if_true, if_neg hne, hc, Option.bind_some]
  · rw [hu, readChars.eq_def]
    simp only [List.cons_append, List.nil_append, if_neg hslash, if_true, hexUnit_control hlow,
      Option.bind_some]
  · rw [hu, List.singleton_append, readChars.eq_def]
    simp only [if_neg hq, if_neg hb]

lemma readChars_flatMap (s rest : Utf16) :
    readChars (s.flatMap escape ++ quoteMark :: rest) = some (s, rest) := by
  induction s with
  | nil =>
      rw [List.flatMap_nil, List.nil_append, readChars.eq_def]
      exact if_pos rfl
  | cons u s ih =>
      rw [List.flatMap_cons, List.append_assoc, readChars_escape, ih]
      rfl

@[simp] lemma expect_append (lit rest : Utf16) : expect lit (lit ++ rest) = some rest := by
  rw [expect, if_pos (List.prefix_append lit rest), List.drop_left]

@[simp] lemma readString_printString (s rest : Utf16) :
    readString (printString s ++ rest) = some (s, rest) := by
  have hopen : printString s ++ rest = [quoteMark] ++ (s.flatMap escape ++ quoteMark :: rest) := by
    simp [printString]
  rw [readString, hopen, expect_append, Option.bind_some, readChars_flatMap]

/-! ## Strings as bytes

A string goes through UTF-8 on its way to the disk. Escapes are ASCII, so only lone surrogates
change. -/

lemma escape_surrogate {u : UInt16} (h : isSurrogate u = true) : escape u = [u] := by
  have hge : 0xD800 ≤ u.toNat := by
    simp only [isSurrogate, isHigh, isLow, Bool.or_eq_true, Bool.and_eq_true, decide_eq_true_eq,
      UInt16.le_iff_toNat_le, UInt16.reduceToNat] at h
    omega
  rcases escape_cases u with ⟨c, -, -, -, hlow⟩ | ⟨hlow, -⟩ | ⟨hu, -, -⟩
  · simp only [UInt16.lt_iff_toNat_lt, UInt16.reduceToNat] at hlow
    omega
  · simp only [UInt16.lt_iff_toNat_lt, UInt16.reduceToNat] at hlow
    omega
  · exact hu

lemma plain_escape {u : UInt16} (h : isSurrogate u = false) : Plain (escape u) := by
  rcases escape_cases u with ⟨c, hu, hc, -, -⟩ | ⟨hlow, hu⟩ | ⟨hu, -, -⟩
  · have hmem : ∃ p ∈ shortEscapes, p.2 = c := by
      obtain ⟨p, hp, -⟩ := Option.map_eq_some_iff.mp hc
      exact ⟨p, List.mem_of_find?_eq_some hp, by simpa using List.find?_some hp⟩
    obtain ⟨p, hp, rfl⟩ := hmem
    have htable : ∀ p ∈ shortEscapes, Plain [backslash, p.2] :=
      List.forall_iff_forall_mem.mp (by decide +kernel)
    exact hu ▸ htable p hp
  · have hall : ∀ n < 32, Plain [backslash, 0x75, 0x30, 0x30, hexDigit (UInt16.ofNat n / 16),
        hexDigit (UInt16.ofNat n % 16)] := by decide +kernel
    have := hall u.toNat (by simpa [UInt16.lt_iff_toNat_lt] using hlow)
    rwa [UInt16.ofNat_toNat, ← hu] at this
  · rw [hu]
    intro v hv
    exact List.mem_singleton.mp hv ▸ h

/-- What an escaped string starts with is no low surrogate, unless the string does. -/
lemma head_escape {u : UInt16} (h : isLow u = false) (t : Utf16) :
    ∀ v ∈ (escape u ++ t).head?, isLow v = false := by
  intro v hv
  rcases escape_cases u with ⟨c, hu, -⟩ | ⟨-, hu⟩ | ⟨hu, -⟩
  · rw [hu] at hv
    exact Option.mem_some_iff.mp hv ▸ by decide
  · rw [hu] at hv
    exact Option.mem_some_iff.mp hv ▸ by decide
  · rw [hu] at hv
    exact Option.mem_some_iff.mp hv ▸ h

/-- A unit that is not part of a pair, in front of text that does not make it one. -/
lemma replaceLone_escape {u : UInt16} {t : Utf16}
    (h : isHigh u = false ∨ ∀ v ∈ t.head?, isLow v = false) :
    replaceLone (escape u ++ t) = escape (single u) ++ replaceLone t := by
  by_cases hu : isSurrogate u = true
  · have hmark : escape (single u) = [single u] := by
      rw [single, if_pos hu]
      decide
    rw [escape_surrogate hu, hmark, List.singleton_append, List.singleton_append]
    rcases h with h | h
    · exact replaceLone_cons h t
    · exact replaceLone_cons_of_head h
  · rw [replaceLone_plain_append (plain_escape (by simpa using hu)), single, if_neg hu]

/-- Escaping first or replacing lone surrogates first makes no difference. -/
lemma replaceLone_flatMap (s : Utf16) {t : Utf16} (ht : ∀ v ∈ t.head?, isLow v = false) :
    replaceLone (s.flatMap escape ++ t) = (replaceLone s).flatMap escape ++ replaceLone t := by
  induction s using utf16_induction with
  | nil => rfl
  | last u =>
      rw [List.flatMap_singleton, replaceLone_escape (Or.inr ht), replaceLone,
        List.flatMap_singleton]
  | pair u v s hu hv ih =>
      have h1 : escape u = [u] := escape_surrogate (by rw [isSurrogate, hu, Bool.true_or])
      have h2 : escape v = [v] := escape_surrogate (by rw [isSurrogate, hv, Bool.or_true])
      rw [replaceLone_pair hu hv]
      simp only [List.flatMap_cons, h1, h2, List.cons_append, List.nil_append,
        replaceLone_pair hu hv, ih]
  | lone u v s h ih =>
      have hnext : isHigh u = false ∨
          ∀ w ∈ ((v :: s).flatMap escape ++ t).head?, isLow w = false := by
        rcases Bool.and_eq_false_iff.mp h with h | h
        · exact Or.inl h
        · refine Or.inr ?_
          rw [List.flatMap_cons, List.append_assoc]
          exact head_escape h _
      rw [replaceLone_lone h, List.flatMap_cons, List.append_assoc, replaceLone_escape hnext, ih,
        List.flatMap_cons, List.append_assoc]

/-- Quotes keep a string apart from what surrounds it. -/
lemma replaceLone_printString (s t : Utf16) :
    replaceLone (printString s ++ t) = printString (replaceLone s) ++ replaceLone t := by
  have hplain : Plain [quoteMark] := by decide
  have hopen : printString s ++ t = [quoteMark] ++ (s.flatMap escape ++ quoteMark :: t) := by
    simp [printString]
  have hhead : ∀ v ∈ (quoteMark :: t).head?, isLow v = false := by
    intro v hv
    exact Option.mem_some_iff.mp hv ▸ by decide
  have hclose : replaceLone (quoteMark :: t) = quoteMark :: replaceLone t :=
    replaceLone_plain_append hplain t
  rw [hopen, replaceLone_plain_append hplain, replaceLone_flatMap s hhead, hclose]
  simp [printString]

/-! ## Maps

The order of the members is part of the text, and a decoder keeps it. -/

def colon : UInt16 := 0x3A

def printMember (p : Utf16 × Utf16) : Utf16 := printString p.1 ++ (colon :: printString p.2)

/-- The members behind the first one, up to the brace. -/
def printMembers : List (Utf16 × Utf16) → Utf16
  | [] => [closeBrace]
  | p :: rest => comma :: (printMember p ++ printMembers rest)

def printMap : List (Utf16 × Utf16) → Utf16
  | [] => [openBrace, closeBrace]
  | p :: rest => openBrace :: (printMember p ++ printMembers rest)

/-- Reads a name and its value. -/
def readMember (s : Utf16) : Option ((Utf16 × Utf16) × Utf16) := do
  let (k, s) ← readString s
  let s ← expect [colon] s
  let (v, s) ← readString s
  some ((k, v), s)

/-- The members behind the first; every one takes more than a unit, so the length of the text bounds
their number. -/
def readMembers : ℕ → Utf16 → Option (List (Utf16 × Utf16) × Utf16)
  | _, [] => none
  | 0, _ => none
  | turns + 1, u :: s =>
      if u = closeBrace then some ([], s)
      else if u = comma then do
        let (p, s) ← readMember s
        let (ps, s) ← readMembers turns s
        some (p :: ps, s)
      else none

/-- Reads a map with its members in the order of the text. -/
def readMap (s : Utf16) : Option (List (Utf16 × Utf16) × Utf16) := do
  let s ← expect [openBrace] s
  match expect [closeBrace] s with
  | some s => some ([], s)
  | none => do
      let (p, s) ← readMember s
      let (ps, s) ← readMembers s.length s
      some (p :: ps, s)

@[simp] lemma readMember_printMember (p : Utf16 × Utf16) (rest : Utf16) :
    readMember (printMember p ++ rest) = some (p, rest) := by
  have hsplit : printMember p ++ rest = printString p.1 ++
    ([colon] ++ (printString p.2 ++ rest)) := by
    simp [printMember]
  simp only [readMember, hsplit, readString_printString, expect_append, Option.bind_eq_bind,
    Option.bind_some]

/-- Reading undoes printing, up to the closing brace. -/
lemma readMembers_printMembers (ps : List (Utf16 × Utf16)) (rest : Utf16) {turns : ℕ}
    (h : ps.length < turns) : readMembers turns (printMembers ps ++ rest) = some (ps, rest) := by
  induction ps generalizing turns with
  | nil =>
      obtain ⟨turns, rfl⟩ : ∃ t, turns = t + 1 := Nat.exists_eq_succ_of_ne_zero (by omega)
      rw [printMembers, List.singleton_append, readMembers, if_pos rfl]
  | cons p ps ih =>
      obtain ⟨turns, rfl⟩ : ∃ t, turns = t + 1 := Nat.exists_eq_succ_of_ne_zero (by omega)
      rw [printMembers, List.cons_append, List.append_assoc, readMembers, if_neg (by decide),
        if_pos rfl, readMember_printMember]
      simp only [Option.bind_eq_bind, Option.bind_some]
      rw [ih (by simpa using h)]
      rfl

lemma length_lt_printMembers (ps : List (Utf16 × Utf16)) :
    ps.length < (printMembers ps).length := by
  induction ps with
  | nil => exact Nat.zero_lt_one
  | cons p ps ih =>
      simp only [printMembers, List.length_cons, List.length_append]
      omega

@[simp] lemma readMap_printMap (ps : List (Utf16 × Utf16)) (rest : Utf16) :
    readMap (printMap ps ++ rest) = some (ps, rest) := by
  cases ps with
  | nil =>
      have hsplit : printMap [] ++ rest = [openBrace] ++ ([closeBrace] ++ rest) := rfl
      simp only [readMap, hsplit, expect_append, Option.bind_eq_bind, Option.bind_some]
  | cons p ps =>
      have hsplit : printMap (p :: ps) ++ rest =
          [openBrace] ++ (printMember p ++ (printMembers ps ++ rest)) := by simp [printMap]
      have hnone : expect [closeBrace] (printMember p ++ (printMembers ps ++ rest)) = none := by
        refine if_neg fun hpre => ?_
        have hhead : closeBrace = quoteMark := (List.cons_prefix_cons.mp hpre).1
        exact absurd hhead (by decide)
      have hturns : ps.length < (printMembers ps ++ rest).length := by
        have := length_lt_printMembers ps
        rw [List.length_append]
        omega
      simp only [readMap, hsplit, expect_append, Option.bind_eq_bind, Option.bind_some, hnone,
        readMember_printMember, readMembers_printMembers ps rest hturns]

lemma replaceLone_printMember (p : Utf16 × Utf16) (t : Utf16) :
    replaceLone (printMember p ++ t) = printMember (replacePair p) ++ replaceLone t := by
  have hcolon : Plain [colon] := by decide
  have hsplit : ∀ q : Utf16 × Utf16, ∀ t, printMember q ++ t =
      printString q.1 ++ ([colon] ++ (printString q.2 ++ t)) := by
    intro q t
    simp [printMember]
  rw [hsplit, replaceLone_printString, replaceLone_plain_append hcolon, replaceLone_printString,
    hsplit]
  rfl

lemma replaceLone_printMembers (ps : List (Utf16 × Utf16)) (t : Utf16) :
    replaceLone (printMembers ps ++ t) = printMembers (ps.map replacePair) ++ replaceLone t := by
  induction ps with
  | nil => exact replaceLone_plain_append (s := [closeBrace]) (by decide) t
  | cons p ps ih =>
      have hcomma := @replaceLone_plain_append [comma] (by decide)
      show replaceLone ([comma] ++ (printMember p ++ printMembers ps ++ t)) = _
      rw [hcomma, List.append_assoc, replaceLone_printMember, ih]
      simp [printMembers]

lemma replaceLone_printMap (ps : List (Utf16 × Utf16)) (t : Utf16) :
    replaceLone (printMap ps ++ t) = printMap (ps.map replacePair) ++ replaceLone t := by
  cases ps with
  | nil => exact replaceLone_plain_append (s := [openBrace, closeBrace]) (by decide) t
  | cons p ps =>
      have hopen := @replaceLone_plain_append [openBrace] (by decide)
      show replaceLone ([openBrace] ++ (printMember p ++ printMembers ps ++ t)) = _
      rw [hopen, List.append_assoc, replaceLone_printMember, replaceLone_printMembers]
      simp [printMap]

/-! ## The other values -/

def literal (s : String) : Utf16 := ascii (bs s)

lemma replaceLone_literal (s : String) (t : Utf16) :
    replaceLone (literal s ++ t) = literal s ++ replaceLone t :=
  replaceLone_plain_append (plain_ascii _) t

/-- A string or `null`. -/
def printEntity : Option Utf16 → Utf16
  | none => literal "null"
  | some s => printString s

def readEntity (s : Utf16) : Option (Option Utf16 × Utf16) :=
  match expect (literal "null") s with
  | some s => some (none, s)
  | none => (readString s).map fun p => (some p.1, p.2)

def printBool (b : Bool) : Utf16 := if b then literal "true" else literal "false"

def readBool (s : Utf16) : Option (Bool × Utf16) :=
  match expect (literal "true") s with
  | some s => some (true, s)
  | none => (expect (literal "false") s).map fun s => (false, s)

/-- A number ends at the comma behind it. -/
def readNumber {α : Type} (ofText : Bytes → Option α) (s : Utf16) : Option (α × Utf16) :=
  let text := s.takeWhile (· ≠ comma)
  if text = ascii (toAscii text) then
    (ofText (toAscii text)).map fun x => (x, s.dropWhile (· ≠ comma))
  else none

lemma expect_of_head_ne {u v : UInt16} (h : u ≠ v) (lit s : Utf16) :
    expect (u :: lit) (v :: s) = none :=
  if_neg fun hpre => h (List.cons_prefix_cons.mp hpre).1

@[simp] lemma readEntity_printEntity (e : Option Utf16) (rest : Utf16) :
    readEntity (printEntity e ++ rest) = some (e, rest) := by
  cases e with
  | none => simp only [readEntity, printEntity, expect_append]
  | some s =>
      have hnone : expect (literal "null") (printString s ++ rest) = none :=
        expect_of_head_ne (u := 0x6E) (v := quoteMark) (by decide) _ _
      simp only [readEntity, printEntity, hnone, readString_printString, Option.map_some]

@[simp] lemma readBool_printBool (b : Bool) (rest : Utf16) :
    readBool (printBool b ++ rest) = some (b, rest) := by
  cases b with
  | true => simp only [readBool, printBool, if_true, expect_append]
  | false =>
      have hnone : expect (literal "true") (literal "false" ++ rest) = none :=
        expect_of_head_ne (u := 0x74) (v := 0x66) (by decide) _ _
      simp only [readBool, printBool, Bool.false_eq_true, if_false, hnone, expect_append,
        Option.map_some]

lemma comma_notMem_ascii {b : Bytes} (h : byte ',' ∉ b) : comma ∉ ascii b := by
  intro hmem
  obtain ⟨x, hx, hcomma⟩ := List.mem_map.mp hmem
  have hback : x.toUInt16.toUInt8 = comma.toUInt8 := congrArg UInt16.toUInt8 hcomma
  rw [UInt8.toUInt8_toUInt16] at hback
  have hx' : x = byte ',' := hback.trans (by decide)
  exact h (hx' ▸ hx)

lemma readNumber_ascii {α : Type} {ofText : Bytes → Option α} {b : Bytes} {x : α}
    (h : byte ',' ∉ b) (hx : ofText b = some x) {rest : Utf16} (hrest : rest.head? = some comma) :
    readNumber ofText (ascii b ++ rest) = some (x, rest) := by
  obtain ⟨t, rfl⟩ : ∃ t, rest = comma :: t := by
    cases rest with
    | nil => exact absurd hrest (by simp)
    | cons u t => exact ⟨t, congrArg (· :: t) (Option.some.inj hrest)⟩
  have hall : ∀ u ∈ ascii b, decide (u ≠ comma) = true := by
    intro u hu
    exact decide_eq_true fun heq => comma_notMem_ascii h (heq ▸ hu)
  have htake : (ascii b ++ comma :: t).takeWhile (· ≠ comma) = ascii b := by
    rw [List.takeWhile_append_of_pos hall, List.takeWhile_cons_of_neg (by simp), List.append_nil]
  have hdrop : (ascii b ++ comma :: t).dropWhile (· ≠ comma) = comma :: t := by
    rw [List.dropWhile_append_of_pos hall, List.dropWhile_cons_of_neg (by simp)]
  simp only [readNumber, htake, hdrop, toAscii_ascii, if_true, hx, Option.map_some]

lemma comma_notMem_formatInt (n : Int64) : byte ',' ∉ formatInt n := by
  have hdigits : byte ',' ∉ formatNat n.toInt.natAbs := fun h =>
    absurd (isDigit_of_mem_formatNat h) (by decide)
  unfold formatInt
  split_ifs
  · rw [List.mem_cons, not_or]
    exact ⟨by decide, hdigits⟩
  · exact hdigits

/-! ## Entries as text -/

/-- The fields as the text has them: keys of a map may repeat. -/
structure JsonFields where
  id : Utf16
  metric : Utf16
  value : Float64
  leaderboardEntity : Option Utf16
  tags : List (Utf16 × Utf16)
  timestampNs : Int64
  quorum : Bool
  leaderboardEntities : List (Utf16 × Utf16)

/-- The fields in the order of the text. -/
def JournalWrite.fields (e : JournalWrite) : JsonFields :=
  ⟨e.id, e.metric, e.value, e.leaderboardEntity, e.tags.entries, e.timestampNs, e.quorum,
    e.leaderboardEntities.entries⟩

/-- The entry a decoder builds; of a repeated key the last value counts. -/
def JsonFields.write (f : JsonFields) : JournalWrite :=
  ⟨f.id, f.metric, f.value, f.leaderboardEntity, LinkedHashMap.ofList f.tags, f.timestampNs,
    f.quorum, LinkedHashMap.ofList f.leaderboardEntities⟩

/-- The fields after the passage through UTF-8. -/
def JsonFields.replaced (f : JsonFields) : JsonFields :=
  { f with
    id := replaceLone f.id
    metric := replaceLone f.metric
    leaderboardEntity := f.leaderboardEntity.map replaceLone
    tags := f.tags.map replacePair
    leaderboardEntities := f.leaderboardEntities.map replacePair }

section Text

variable (D : DoubleText)

/-- The text of an entry. -/
def JsonFields.print (f : JsonFields) : Utf16 :=
  literal "\x7b\"id\":" ++ (printString f.id ++
  (literal ",\"metric\":" ++ (printString f.metric ++
  (literal ",\"value\":" ++ (ascii (D.toText f.value) ++
  (literal ",\"leaderboardEntity\":" ++ (printEntity f.leaderboardEntity ++
  (literal ",\"tags\":" ++ (printMap f.tags ++
  (literal ",\"timestampNs\":" ++ (ascii (formatInt f.timestampNs) ++
  (literal ",\"quorum\":" ++ (printBool f.quorum ++
  (literal ",\"leaderboardEntities\":" ++ (printMap f.leaderboardEntities ++
  literal "\x7d")))))))))))))))

/-- The reader, on texts with the fields in the order of the class and no blanks. -/
def readFields (s : Utf16) : Option JsonFields := do
  let s ← expect (literal "\x7b\"id\":") s
  let (id, s) ← readString s
  let s ← expect (literal ",\"metric\":") s
  let (metric, s) ← readString s
  let s ← expect (literal ",\"value\":") s
  let (value, s) ← readNumber D.ofText s
  let s ← expect (literal ",\"leaderboardEntity\":") s
  let (leaderboardEntity, s) ← readEntity s
  let s ← expect (literal ",\"tags\":") s
  let (tags, s) ← readMap s
  let s ← expect (literal ",\"timestampNs\":") s
  let (timestampNs, s) ← readNumber parseInt s
  let s ← expect (literal ",\"quorum\":") s
  let (quorum, s) ← readBool s
  let s ← expect (literal ",\"leaderboardEntities\":") s
  let (leaderboardEntities, s) ← readMap s
  let s ← expect (literal "\x7d") s
  if s = [] then
    some ⟨id, metric, value, leaderboardEntity, tags, timestampNs, quorum, leaderboardEntities⟩
  else none

/-- `json.encodeToString`. -/
def encodeToString (e : JournalWrite) : Utf16 := e.fields.print D

/-- `json.decodeFromString`. -/
def decodeFromString (s : Utf16) : Option JournalWrite := (readFields D s).map JsonFields.write

/-- The payload of an entry's frame. -/
def encodeEntry (e : JournalWrite) : Bytes := getBytes (encodeToString D e)

/-- The entry of a payload. -/
def decodeEntry (payload : Bytes) : Option JournalWrite :=
  (decodeUtf8 payload).bind (decodeFromString D)

variable {D}

/-- One step of a reader. -/
lemma bind_of_eq_some {α β : Type} {x : Option α} {a : α} {next : α → Option β} {r : Option β}
    (hx : x = some a) (h : next a = r) : (x >>= next) = r := by
  rw [hx]
  exact h

/-- Reading undoes printing, field by field. -/
lemma readFields_print {f : JsonFields} (hvalue : f.value.isFinite = true) :
    readFields D (f.print D) = some f := by
  have hnumber : ∀ rest, readNumber D.ofText (ascii (D.toText f.value) ++
      (literal ",\"leaderboardEntity\":" ++ rest)) =
        some (f.value, literal ",\"leaderboardEntity\":" ++ rest) := fun rest =>
    readNumber_ascii (D.comma_notMem f.value hvalue) (D.ofText_toText f.value hvalue) rfl
  have hint : ∀ rest, readNumber parseInt (ascii (formatInt f.timestampNs) ++
      (literal ",\"quorum\":" ++ rest)) = some (f.timestampNs, literal ",\"quorum\":" ++ rest) :=
    fun rest => readNumber_ascii (comma_notMem_formatInt _) (parseInt_formatInt_eq _) rfl
  have hend : expect (literal "\x7d") (literal "\x7d") = some [] := by
    have h := expect_append (literal "\x7d") []
    rwa [List.append_nil] at h
  refine bind_of_eq_some (expect_append _ _) ?_
  refine bind_of_eq_some (readString_printString _ _) ?_
  refine bind_of_eq_some (expect_append _ _) ?_
  refine bind_of_eq_some (readString_printString _ _) ?_
  refine bind_of_eq_some (expect_append _ _) ?_
  refine bind_of_eq_some (hnumber _) ?_
  refine bind_of_eq_some (expect_append _ _) ?_
  refine bind_of_eq_some (readEntity_printEntity _ _) ?_
  refine bind_of_eq_some (expect_append _ _) ?_
  refine bind_of_eq_some (readMap_printMap _ _) ?_
  refine bind_of_eq_some (expect_append _ _) ?_
  refine bind_of_eq_some (hint _) ?_
  refine bind_of_eq_some (expect_append _ _) ?_
  refine bind_of_eq_some (readBool_printBool _ _) ?_
  refine bind_of_eq_some (expect_append _ _) ?_
  refine bind_of_eq_some (readMap_printMap _ _) ?_
  refine bind_of_eq_some hend ?_
  exact if_pos rfl

lemma replaceLone_print (f : JsonFields) :
    replaceLone (f.print D) = f.replaced.print D := by
  have hnumber : ∀ b t, replaceLone (ascii b ++ t) = ascii b ++ replaceLone t := fun b t =>
    replaceLone_plain_append (plain_ascii b) t
  have hbool : ∀ b t, replaceLone (printBool b ++ t) = printBool b ++ replaceLone t := by
    intro b t
    cases b <;> exact replaceLone_literal _ t
  have hentity : ∀ e t, replaceLone (printEntity e ++ t) =
      printEntity (e.map replaceLone) ++ replaceLone t := by
    intro e t
    cases e with
    | none => exact replaceLone_literal _ t
    | some s => exact replaceLone_printString s t
  have hend : replaceLone (literal "\x7d") = literal "\x7d" := by decide
  rw [JsonFields.print, replaceLone_literal, replaceLone_printString, replaceLone_literal,
    replaceLone_printString, replaceLone_literal, hnumber, replaceLone_literal, hentity,
    replaceLone_literal, replaceLone_printMap, replaceLone_literal, hnumber, replaceLone_literal,
    hbool, replaceLone_literal, replaceLone_printMap, hend]
  rfl

/-- **What an entry's payload reads as.** -/
theorem decodeEntry_encodeEntry {e : JournalWrite} (h : e.value.isFinite = true) :
    decodeEntry D (encodeEntry D e) = some e.replaced := by
  have htext : replaceLone (encodeToString D e) = e.fields.replaced.print D :=
    replaceLone_print e.fields
  have hread : readFields D (e.fields.replaced.print D) = some e.fields.replaced :=
    readFields_print h
  rw [decodeEntry, encodeEntry, decodeUtf8_getBytes, Option.bind_some, htext,
    decodeFromString, hread]
  rfl

lemma encodeEntry_ne_nil {e : JournalWrite} (h : e.value.isFinite = true) :
    encodeEntry D e ≠ [] := by
  intro hnil
  have hread := @decodeEntry_encodeEntry D e h
  have hnone : decodeEntry D [] = none := rfl
  rw [hnil, hnone] at hread
  exact absurd hread (by simp)

/-! ### The codec of the journal

The client checks an entry before it reaches the journal, but not for lone surrogates: an admitted
entry need not be what its text reads back as. -/

/-- `Char.isWhitespace`. -/
def isWhitespace (u : UInt16) : Bool :=
  (0x09 ≤ u && u ≤ 0x0D) || (0x1C ≤ u && u ≤ 0x20) || u = 0xA0 || u = 0x1680 ||
    (0x2000 ≤ u && u ≤ 0x200A) || u = 0x2028 || u = 0x2029 || u = 0x202F || u = 0x205F || u = 0x3000

/-- The check of names on admission. -/
def validIdentifier (s : Utf16) : Bool :=
  !s.isEmpty && s.all fun u =>
    !(isWhitespace u || u = 0x00 || u = 0x1F || u = 0x3D || u = 0x22 || u = 0x2C)

/-- The checks before an entry reaches the journal. -/
def JournalWrite.admissible (e : JournalWrite) : Bool :=
  e.value.isFinite && validIdentifier e.metric &&
    (e.tags.entries ++ e.leaderboardEntities.entries).all fun p => validIdentifier p.1

lemma JournalWrite.isFinite_of_admissible {e : JournalWrite} (h : e.admissible = true) :
    e.value.isFinite = true := by
  simp only [admissible, Bool.and_eq_true] at h
  exact h.1.1

variable (D) in
/-- The entries of the buffered client. -/
def entryCodec : JsonCodec JournalWrite where
  admits := JournalWrite.admissible
  encode := encodeEntry D
  decode := decodeEntry D

/-- **Admitted entries read back as themselves exactly without a lone surrogate.** -/
lemma faithful_entryCodec {e : JournalWrite} (hadmits : e.admissible = true) :
    (entryCodec D).Faithful e ↔ e.WellFormed := by
  have hfinite := JournalWrite.isFinite_of_admissible hadmits
  have hread : (entryCodec D).decode ((entryCodec D).encode e) = some e.replaced :=
    decodeEntry_encodeEntry hfinite
  rw [← e.replaced_eq_self]
  refine ⟨fun h => ?_, fun h => ⟨encodeEntry_ne_nil hfinite, ?_⟩⟩
  · exact Option.some.inj (hread.symm.trans h.decoded)
  · rw [hread, h]

end Text

/-- Zero and one and a half as the JVM prints them, and any other double as the number of its
bits. -/
def sampleText : DoubleText where
  toText x :=
    if x = Float64.zero then bs "0.0"
    else if x = Float64.ofBits 0x3FF8000000000000 then bs "1.5"
    else formatNat x.bits.toNat
  ofText b :=
    if b = bs "0.0" then some Float64.zero
    else if b = bs "1.5" then some (Float64.ofBits 0x3FF8000000000000)
    else some (Float64.ofBits (decimalValue b))
  ofText_toText x _ := by
    -- the number of the bits has no point
    have hpoint : ∀ n : ℕ, byte '.' ∉ formatNat n := fun n h =>
      absurd (isDigit_of_mem_formatNat h) (by decide)
    have hzero : formatNat x.bits.toNat ≠ bs "0.0" := fun h =>
      hpoint x.bits.toNat (by rw [h]; decide)
    have hhalf : formatNat x.bits.toNat ≠ bs "1.5" := fun h =>
      hpoint x.bits.toNat (by rw [h]; decide)
    by_cases h0 : x = Float64.zero
    · rw [if_pos h0, if_pos rfl, h0]
    by_cases h1 : x = Float64.ofBits 0x3FF8000000000000
    · rw [if_neg h0, if_pos h1, if_neg (by decide), if_pos rfl, h1]
    · rw [if_neg h0, if_neg h1, if_neg hzero, if_neg hhalf, decimalValue_formatNat, Float64.ofBits,
        BitVec.ofNat_toNat, BitVec.setWidth_eq]
  comma_notMem x _ := by
    split_ifs
    · decide
    · decide
    · exact fun h => absurd (isDigit_of_mem_formatNat h) (by decide)

/-- A write of a metric; identifiers, tags and entities are as in a small program. -/
def sampleWrite (id : String) (metric : Utf16) (value : Float64) : JournalWrite :=
  ⟨literal id, metric, value, none, LinkedHashMap.empty, 1, false, LinkedHashMap.empty⟩

/-- A metric whose last character is half a pair. -/
def loneWrite : JournalWrite := sampleWrite "1" [0x61, 0xD800] Float64.zero

/-- What is read in its place. -/
def alteredWrite : JournalWrite := sampleWrite "1" [0x61, 0x3F] Float64.zero

end FlameDB.Client
