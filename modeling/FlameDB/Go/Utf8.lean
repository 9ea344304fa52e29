import FlameDB.Go.Bytes

/-!
# UTF-8 as Go reads it

`for _, ch := range s` decodes a string rune by rune; a byte that starts no valid encoding yields
`U+FFFD` and advances by one.  `runes` is that loop, `encodeRunes` is `WriteRune` repeated.

Decoding is driven by Lean's own UTF-8 decoder, whose specification makes a decoding step the
inverse of encoding (`decodeRune_eq_some_iff`).  The consequences used later are:

* `runes_encodeRunes` — encoded runes read back unchanged, so a string is valid UTF-8 exactly
  when it is an encoding (`ValidUtf8`);
* `runes_append_cons` — text that starts with an ASCII byte is read the same whatever stands before
  it, even a truncated sequence;
* `toValidUtf8` — the replacement `encoding/json` performs on strings, the identity on valid
  UTF-8.
-/

namespace Go

/-- The rune Go reports for a byte that starts no valid encoding. -/
def runeError : Char := '�'

/-- `utf8.DecodeRune` at the front of a string, or `none` where it reports `RuneError`, width 1. -/
def decodeRune (b : Bytes) : Option Char := (ByteArray.mk b.toArray).utf8DecodeChar? 0

/-- `utf8.AppendRune`. -/
def encodeRune (c : Char) : Bytes := String.utf8EncodeChar c

/-- Several `WriteRune` calls. -/
def encodeRunes (cs : List Char) : Bytes := cs.flatMap encodeRune

/-- The `range` loop, started `skip` bytes into the string. -/
def runesFrom : ℕ → Bytes → List Char
  | _, [] => []
  | skip + 1, _ :: rest => runesFrom skip rest
  | 0, b :: rest =>
      match decodeRune (b :: rest) with
      | some c => c :: runesFrom (c.utf8Size - 1) rest
      | none => runeError :: runesFrom 0 rest

/-- The runes of a string, as a `range` loop visits them. -/
def runes (b : Bytes) : List Char := runesFrom 0 b

/-- The string is a sequence of encoded runes. -/
def ValidUtf8 (b : Bytes) : Prop := ∃ cs, b = encodeRunes cs

/-- `strings.ToValidUTF8` with one replacement per bad byte: what `encoding/json` writes. -/
def toValidUtf8 (b : Bytes) : Bytes := encodeRunes (runes b)

/-! ## One decoding step

Decoding takes at least one byte. Invalid bytes come out one at a time as the replacement character.
-/

lemma toByteArray_eq (b : Bytes) : b.toByteArray = ByteArray.mk b.toArray := by
  apply ByteArray.ext
  simp

/-- A rune is decoded exactly when its encoding stands at the front. -/
theorem decodeRune_eq_some_iff (b : Bytes) (c : Char) :
    decodeRune b = some c ↔ ∃ rest, b = encodeRune c ++ rest := by
  unfold decodeRune encodeRune
  rw [← toByteArray_eq]
  constructor
  · intro h
    obtain ⟨l, hl⟩ := ByteArray.exists_of_utf8DecodeChar?_eq_some h
    refine ⟨l.data.toList, ?_⟩
    have := congrArg (fun x : ByteArray => x.data.toList) hl
    simpa using this
  · rintro ⟨rest, rfl⟩
    rw [List.toByteArray_append]
    exact ByteArray.utf8DecodeChar?_utf8EncodeChar_append

@[simp] lemma decodeRune_encodeRune_append (c : Char) (rest : Bytes) :
    decodeRune (encodeRune c ++ rest) = some c :=
  (decodeRune_eq_some_iff _ _).mpr ⟨rest, rfl⟩

@[simp] lemma encodeRune_length (c : Char) : (encodeRune c).length = c.utf8Size :=
  String.length_utf8EncodeChar c

lemma encodeRune_ne_nil (c : Char) : encodeRune c ≠ [] := by
  intro h
  have := encodeRune_length c
  rw [h] at this
  exact absurd this.symm (Nat.pos_iff_ne_zero.mp c.utf8Size_pos)

@[simp] lemma encodeRunes_nil : encodeRunes [] = [] := rfl

@[simp] lemma encodeRunes_cons (c : Char) (cs : List Char) :
    encodeRunes (c :: cs) = encodeRune c ++ encodeRunes cs := rfl

@[simp] lemma encodeRunes_append (cs ds : List Char) :
    encodeRunes (cs ++ ds) = encodeRunes cs ++ encodeRunes ds := by
  simp [encodeRunes]

/-- A rune below `U+0080` is one byte, any other one has no byte below `0x80`. -/
lemma encodeRune_ascii (c : Char) :
    (c.toNat < 128 ∧ encodeRune c = [UInt8.ofNat c.toNat]) ∨
      (128 ≤ c.toNat ∧ ∀ b ∈ encodeRune c, 0x80 ≤ b) := by
  have hv : c.toNat = c.val.toNat := rfl
  have hc := c.valid
  unfold encodeRune
  fun_cases String.utf8EncodeChar
  · exact Or.inl ⟨by grind, rfl⟩
  all_goals
    right
    refine ⟨by grind, ?_⟩
    simp only [List.mem_cons, List.not_mem_nil, or_false, forall_eq_or_imp, forall_eq,
      UInt8.le_iff_toNat_le, UInt8.toNat_ofNat', UInt8.toNat_ofNat]
    grind

/-! ## The loop -/

@[simp] lemma runes_nil : runes [] = [] := rfl

lemma runesFrom_append (l r : Bytes) : runesFrom l.length (l ++ r) = runes r := by
  induction l with
  | nil => rfl
  | cons b l ih => simpa only [List.length_cons, List.cons_append, runesFrom] using ih

@[simp] lemma runes_encodeRune_append (c : Char) (rest : Bytes) :
    runes (encodeRune c ++ rest) = c :: runes rest := by
  have hd := decodeRune_encodeRune_append c rest
  have hlen := encodeRune_length c
  obtain ⟨b, l, hl⟩ := List.exists_cons_of_ne_nil (encodeRune_ne_nil c)
  rw [hl, List.cons_append] at hd ⊢
  rw [hl, List.length_cons] at hlen
  have hskip : c.utf8Size - 1 = l.length := by omega
  simp only [runes, runesFrom, hd, hskip]
  rw [runesFrom_append l rest]
  rfl

lemma runes_cons_of_decode_none {b : UInt8} {rest : Bytes} (h : decodeRune (b :: rest) = none) :
    runes (b :: rest) = runeError :: runes rest := by
  simp only [runes, runesFrom, h]

/-- The case analysis of the loop as an induction rule: a string is empty, starts with an encoded
rune, or starts with a byte that decodes to nothing. -/
@[elab_as_elim]
theorem runes_induction {motive : Bytes → Prop} (nil : motive [])
    (rune : ∀ c rest, motive rest → motive (encodeRune c ++ rest))
    (bad : ∀ b rest, decodeRune (b :: rest) = none → motive rest → motive (b :: rest))
    (s : Bytes) : motive s := by
  induction hn : s.length using Nat.strong_induction_on generalizing s with
  | _ n ih =>
      cases s with
      | nil => exact nil
      | cons b rest =>
          cases hd : decodeRune (b :: rest) with
          | none => exact bad b rest hd (ih rest.length (by simp [← hn]) rest rfl)
          | some c =>
              obtain ⟨tail, htail⟩ := (decodeRune_eq_some_iff _ _).mp hd
              rw [htail] at hn ⊢
              have hpos := c.utf8Size_pos
              rw [List.length_append, encodeRune_length] at hn
              exact rune c tail (ih tail.length (by omega) tail rfl)

@[simp] lemma runes_encodeRunes_append (cs : List Char) (rest : Bytes) :
    runes (encodeRunes cs ++ rest) = cs ++ runes rest := by
  induction cs with
  | nil => rfl
  | cons c cs ih => rw [encodeRunes_cons, List.append_assoc, runes_encodeRune_append, ih]; rfl

/-- **Encoded runes read back unchanged.** -/
@[simp] theorem runes_encodeRunes (cs : List Char) : runes (encodeRunes cs) = cs := by
  simpa using runes_encodeRunes_append cs []

/-- An encoding that overlaps an ASCII byte ends before it. -/
lemma encodeRune_isPrefix_of_ascii {c : Char} {rest s t : Bytes} {b : UInt8} (hs : s ≠ [])
    (hb : b < 0x80) (h : encodeRune c ++ rest = s ++ b :: t) :
    ∃ r, s = encodeRune c ++ r := by
  rcases List.append_eq_append_iff.mp h with ⟨r, hsr, _⟩ | ⟨r, hcr, hr⟩
  · exact ⟨r, hsr⟩
  · cases r with
    | nil => exact ⟨[], by simpa using hcr.symm⟩
    | cons x r =>
        obtain ⟨rfl, -⟩ : b = x ∧ t = r ++ rest := by simpa using hr
        rcases encodeRune_ascii c with ⟨-, hone⟩ | ⟨-, hall⟩
        · have := congrArg List.length (hone.symm.trans hcr)
          have := List.length_pos_iff.mpr hs
          simp at *
          omega
        · exact absurd (hall b (by simp [hcr])) (not_le.mpr hb)

/-- **Text starting with an ASCII byte is read the same after any string.** -/
theorem runes_append_cons (s : Bytes) {b : UInt8} (hb : b < 0x80) (t : Bytes) :
    runes (s ++ b :: t) = runes s ++ runes (b :: t) := by
  induction s using runes_induction with
  | nil => rfl
  | rune c rest ih => rw [List.append_assoc, runes_encodeRune_append, ih,
      runes_encodeRune_append, List.cons_append]
  | bad x rest hx ih =>
      have hd : decodeRune (x :: (rest ++ b :: t)) = none := by
        by_contra hne
        obtain ⟨c, hc⟩ := Option.ne_none_iff_exists'.mp hne
        obtain ⟨tail, htail⟩ := (decodeRune_eq_some_iff _ _).mp hc
        obtain ⟨r, hr⟩ := encodeRune_isPrefix_of_ascii (s := x :: rest) (by simp) hb htail.symm
        rw [hr, decodeRune_encodeRune_append] at hx
        exact absurd hx (by simp)
      rw [List.cons_append, runes_cons_of_decode_none hd, ih, runes_cons_of_decode_none hx]
      rfl

/-- An ASCII byte of an encoding is one of its runes. -/
lemma mem_encodeRunes_ascii {cs : List Char} {b : UInt8} (h : b ∈ encodeRunes cs) (hb : b < 0x80) :
    ∃ c ∈ cs, c.toNat < 128 ∧ b = UInt8.ofNat c.toNat := by
  obtain ⟨c, hc, hbc⟩ := List.mem_flatMap.mp h
  refine ⟨c, hc, ?_⟩
  rcases encodeRune_ascii c with ⟨hlt, hone⟩ | ⟨-, hall⟩
  · rw [hone] at hbc
    exact ⟨hlt, List.mem_singleton.mp hbc⟩
  · exact absurd (hall b hbc) (not_le.mpr hb)

/-- A string of bytes below `0x80` is made of one rune per byte. -/
lemma encodeRunes_map_ascii {s : Bytes} (h : ∀ b ∈ s, b < 0x80) :
    encodeRunes (s.map fun b => Char.ofNat b.toNat) = s := by
  induction s with
  | nil => rfl
  | cons b s ih =>
      have hone : ∀ b : UInt8, b < 0x80 → encodeRune (Char.ofNat b.toNat) = [b] :=
        forall_uint8 (by decide +kernel)
      rw [List.map_cons, encodeRunes_cons, hone b (h b List.mem_cons_self),
        ih fun x hx => h x (List.mem_cons_of_mem _ hx)]
      rfl

/-- An ASCII rune that is read from a string is one of its bytes. -/
lemma mem_of_mem_runes {s : Bytes} {c : Char} (h : c ∈ runes s) (hc : c.toNat < 128) :
    UInt8.ofNat c.toNat ∈ s := by
  induction s using runes_induction with
  | nil => simp at h
  | rune d rest ih =>
      rw [runes_encodeRune_append] at h
      rcases List.mem_cons.mp h with rfl | h
      · rcases encodeRune_ascii c with ⟨-, hone⟩ | ⟨hge, -⟩
        · simp [hone]
        · omega
      · exact List.mem_append_right _ (ih h)
  | bad b rest hb ih =>
      rw [runes_cons_of_decode_none hb] at h
      rcases List.mem_cons.mp h with rfl | h
      · exact absurd hc (by decide)
      · exact List.mem_cons_of_mem _ (ih h)

lemma validUtf8_iff (b : Bytes) : ValidUtf8 b ↔ toValidUtf8 b = b := by
  unfold toValidUtf8
  constructor
  · rintro ⟨cs, rfl⟩
    rw [runes_encodeRunes]
  · intro h
    exact ⟨runes b, h.symm⟩

instance (b : Bytes) : Decidable (ValidUtf8 b) := decidable_of_iff' _ (validUtf8_iff b)

lemma ValidUtf8.toValid {b : Bytes} (h : ValidUtf8 b) : toValidUtf8 b = b :=
  (validUtf8_iff b).mp h

@[simp] lemma validUtf8_toValidUtf8 (b : Bytes) : ValidUtf8 (toValidUtf8 b) := ⟨runes b, rfl⟩

lemma validUtf8_of_ascii {s : Bytes} (h : ∀ b ∈ s, b < 0x80) : ValidUtf8 s :=
  ⟨_, (encodeRunes_map_ascii h).symm⟩

end Go
