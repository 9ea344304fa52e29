import FlameDB.Query.Arguments

/-!
# Accepted lines

What `Parse` guarantees about the queries it returns, and how it reads a line to which text was
appended.

* `Parsed.admitted` — a parsed query passed `validateQuery`, and its metric holds no separator.
* `cutOperationID_append` — an operation id written at the end of a line is the one that is read.
* `prepare_append` — text appended to a closed line adds its tokens to the arguments;
  `prepare_append_open` — appended to an open line, it makes the line unreadable.
-/

namespace FlameDB

open Go KV

/-- An operation id as `newOperationID` makes them. -/
def IsOperationID (op : Bytes) : Prop := op.length = 32 ∧ ∀ c ∈ op, IsHexDigit c

instance (op : Bytes) : Decidable (IsOperationID op) := inferInstanceAs (Decidable (_ ∧ _))

/-- Either nothing is cut off, or an operation id behind its mark. -/
lemma cutOperationID_spec (s : Bytes) :
    cutOperationID s = ([], s) ∨
      IsOperationID (cutOperationID s).1 ∧
        s = (cutOperationID s).2 ++ bs " __op=" ++ (cutOperationID s).1 := by
  unfold cutOperationID
  cases hpos : lastIndex (bs " __op=") s with
  | none => exact Or.inl rfl
  | some pos =>
      simp only
      split_ifs with hop
      · exact Or.inr ⟨hop, lastIndex_spec hpos⟩
      · exact Or.inl rfl

/-- **The operation id at the end of a line is read.** -/
theorem cutOperationID_append (line : Bytes) {op : Bytes} (h : IsOperationID op) :
    cutOperationID (line ++ bs " __op=" ++ op) = (op, line) := by
  have hblank : byte ' ' ∉ op := fun hmem => absurd (h.2 _ hmem) (by decide)
  have hlast : lastIndex (bs " __op=") (line ++ bs " __op=" ++ op) = some line.length :=
    @lastIndex_append (byte ' ') (bs "__op=") op (by decide) hblank line
  have hdrop : (line ++ bs " __op=" ++ op).drop (line.length + 6) = op :=
    List.drop_left' (by simp; rfl)
  have htake : (line ++ bs " __op=" ++ op).take line.length = line := by
    rw [List.append_assoc, List.take_left' rfl]
  simp only [cutOperationID, hlast, hdrop, htake]
  exact if_pos h

/-- An operation id is cut off the last part of a line, whatever stands before it. -/
lemma cutOperationID_behind (t : Bytes) : ∃ op rest, (rest = [] ∨ ∃ s, rest = byte ' ' :: s) ∧
    ∀ front, cutOperationID (front ++ byte ' ' :: t) = (op, front ++ rest) := by
  by_cases hop : ∃ op rest, IsOperationID op ∧ byte ' ' :: t = rest ++ (bs " __op=" ++ op)
  · obtain ⟨op, rest, hid, heq⟩ := hop
    refine ⟨op, rest, ?_, fun front => ?_⟩
    · cases rest with
      | nil => exact Or.inl rfl
      | cons c s => exact Or.inr ⟨s, by rw [(List.cons.inj heq).1]⟩
    · rw [heq, ← List.append_assoc, ← List.append_assoc]
      exact cutOperationID_append (front ++ rest) hid
  · refine ⟨[], byte ' ' :: t, Or.inr ⟨t, rfl⟩, fun front => ?_⟩
    rcases cutOperationID_spec (front ++ byte ' ' :: t) with h | ⟨hid, h⟩
    · exact h
    -- the id would have to begin before the last part, but there is no blank in it
    generalize (cutOperationID (front ++ byte ' ' :: t)).1 = op at *
    generalize (cutOperationID (front ++ byte ' ' :: t)).2 = line' at *
    exfalso
    have hblank : byte ' ' ∉ bs "__op=" ++ op := by
      intro hb
      rcases List.mem_append.mp hb with hb | hb
      · exact absurd hb (by decide)
      · exact absurd (hid.2 _ hb) (by decide)
    rw [List.append_assoc] at h
    rcases List.append_eq_append_iff.mp h with ⟨a, -, ha⟩ | ⟨a, -, ha⟩
    · exact hop ⟨op, a, hid, ha⟩
    · cases a with
      | nil => exact hop ⟨op, [], hid, ha.symm⟩
      | cons x a =>
          have htail : bs "__op=" ++ op = a ++ byte ' ' :: t := (List.cons.inj ha).2
          exact hblank (htail ▸ by simp)

/-- A line that ends with anything but a hexadecimal digit carries no operation id. -/
lemma cutOperationID_of_last (s : Bytes) {c : UInt8} (hc : ¬ IsHexDigit c) :
    cutOperationID (s ++ [c]) = ([], s ++ [c]) := by
  rcases cutOperationID_spec (s ++ [c]) with h | ⟨⟨hlen, hhex⟩, h⟩
  · exact h
  · refine absurd (hhex c ?_) hc
    generalize (cutOperationID (s ++ [c])).1 = op at *
    obtain ⟨op', x, rfl⟩ := List.eq_nil_or_concat op |>.resolve_left
      (by rintro rfl; simp at hlen) |>.imp fun _ => id
    rw [List.concat_eq_append, ← List.append_assoc] at h
    obtain rfl : c = x := by simpa using (List.append_inj' h rfl).2
    simp

/-- A token at the end of a line is not the end of an operation id. -/
lemma cutOperationID_of_token {line front t : Bytes} (ht : t ∈ tokenize line)
    (hquoted : byte '"' ∈ t → unquote t ≠ none) :
    cutOperationID (front ++ byte ' ' :: t) = ([], front ++ byte ' ' :: t) := by
  by_cases hmem : byte '"' ∈ t
  · obtain ⟨v, hv⟩ := Option.ne_none_iff_exists'.mp (hquoted hmem)
    obtain ⟨quote, body, rfl, hmark⟩ := unquote_ends hv
    have hhex : ∀ c ∈ [byte '\x60', byte '"', byte '\''], ¬ IsHexDigit c := by decide +kernel
    have hcut := cutOperationID_of_last (front ++ byte ' ' :: quote :: body) (hhex quote hmark)
    simpa using hcut
  rcases separators_of_mem_tokenize ht hmem with rfl | ⟨heq, hblank⟩
  · have hhex : ¬ IsHexDigit (byte '=') := by decide
    have hcut := cutOperationID_of_last (front ++ [byte ' ']) hhex
    simpa using hcut
  rcases cutOperationID_spec (front ++ byte ' ' :: t) with h | ⟨⟨-, hhex⟩, h⟩
  · exact h
  generalize (cutOperationID (front ++ byte ' ' :: t)).1 = op at *
  generalize (cutOperationID (front ++ byte ' ' :: t)).2 = line' at *
  have hop : byte ' ' ∉ bs "__op=" ++ op := by
    intro hb
    rcases List.mem_append.mp hb with hb | hb
    · exact absurd hb (by decide)
    · exact absurd (hhex _ hb) (by decide)
  have hsplit : front ++ byte ' ' :: t = line' ++ byte ' ' :: (bs "__op=" ++ op) := by
    rw [h, List.append_assoc]
    rfl
  -- both sides end behind their last blank
  have htoken : t = bs "__op=" ++ op := by
    rcases List.append_eq_append_iff.mp hsplit with ⟨a, -, ha⟩ | ⟨a, -, ha⟩
    · cases a with
      | nil => exact (List.cons.inj ha).2
      | cons x a => exact absurd ((List.cons.inj ha).2 ▸ by simp) hblank
    · cases a with
      | nil => exact (List.cons.inj ha).2.symm
      | cons x a => exact absurd ((List.cons.inj ha).2 ▸ by simp) hop
  exact absurd (htoken ▸ List.mem_append_left _ (by decide)) heq

/-! ## Reading a line -/

/-- No byte that would end the line or a frame. -/
def Clean (s : Bytes) : Prop := ∀ c ∈ s, c ∉ framingChars

instance (s : Bytes) : Decidable (Clean s) := inferInstanceAs (Decidable (∀ c ∈ s, _))

lemma PlainText.clean {s : Bytes} (h : PlainText s) : Clean s := by
  have hbyte : ∀ b : UInt8, 0x20 ≤ b → b ∉ framingChars := forall_uint8 (by decide +kernel)
  exact fun b hb => hbyte b (h b hb).1

lemma Clean.append {s t : Bytes} (hs : Clean s) (ht : Clean t) : Clean (s ++ t) := by
  intro b hb
  rcases List.mem_append.mp hb with h | h
  · exact hs b h
  · exact ht b h

/-- Every token with a quote is a quoted string. -/
def Quoted (tokens : List Bytes) : Prop := ∀ t ∈ tokens, byte '"' ∈ t → unquote t ≠ none

lemma prepare_eq_ok_iff {input op cmd : Bytes} {args : List Bytes} :
    prepare input = .ok (op, cmd, args) ↔
      Clean input ∧ Quoted (cmd :: args) ∧ tokenize (cutOperationID input).2 = cmd :: args ∧
        (cutOperationID input).1 = op := by
  have hclean : containsAny input framingChars = true ↔ ¬ Clean input := by
    simp [containsAny, Clean]
  have hquoted : ∀ tokens : List Bytes,
      (∃ t ∈ tokens, byte '"' ∈ t ∧ unquote t = none) ↔ ¬ Quoted tokens := by
    simp [Quoted]
  simp only [prepare, failIf_bind_eq_ok_iff, hclean, hquoted, not_not]
  refine and_congr_right fun _ => ?_
  cases tokenize (cutOperationID input).2 with
  | nil => simp
  | cons c as =>
      simp only [pure, Except.pure, Except.ok.injEq, Prod.mk.injEq, List.cons.injEq]
      constructor
      · rintro ⟨hq, hop, rfl, rfl⟩
        exact ⟨hq, ⟨rfl, rfl⟩, hop⟩
      · rintro ⟨hq, ⟨rfl, rfl⟩, hop⟩
        exact ⟨hq, hop, rfl, rfl⟩

lemma Quoted.append {ts us : List Bytes} (ht : Quoted ts) (hu : Quoted us) : Quoted (ts ++ us) := by
  intro t hmem
  rcases List.mem_append.mp hmem with h | h
  · exact ht t h
  · exact hu t h

/-- The tokens of a plain text hold no quotes. -/
lemma PlainText.quoted {s : Bytes} (h : PlainText s) : Quoted (tokenize s) := by
  intro t ht hmem
  have := h _ (mem_of_mem_tokenize ht hmem (by decide))
  exact absurd (by decide) this.2.2

/-- **Text appended to a closed line adds its tokens to the arguments.**  What counts is the line
without its operation id; another one may stand at the end of the appended text. -/
theorem prepare_append {line s op₀ op cmd : Bytes} {args : List Bytes}
    (hprep : prepare line = .ok (op₀, cmd, args)) (hclosed : Closed (cutOperationID line).2)
    {ext : Bytes} (hext : cutOperationID ext = (op, (cutOperationID line).2 ++ byte ' ' :: s))
    (hclean : Clean ext) (hs : Quoted (tokenize s)) :
    prepare ext = .ok (op, cmd, args ++ tokenize s) := by
  obtain ⟨-, hq, htok, -⟩ := prepare_eq_ok_iff.mp hprep
  refine prepare_eq_ok_iff.mpr ⟨hclean, ?_, ?_, ?_⟩
  · simpa using hq.append hs
  · rw [hext, tokenize_append hclosed, htok]
    rfl
  · rw [hext]

/-- **Appended to an open line, plain text makes the line unreadable**, unless it ends with a quote
of any kind. -/
theorem prepare_append_open {line s op ext : Bytes} (hopen : ¬ Closed line) (hs : PlainText s)
    {c : UInt8} (hlast : (byte ' ' :: s).getLast? = some c)
    (hc : c ∉ [byte '\x60', byte '"', byte '\''])
    (hext : cutOperationID ext = (op, line ++ byte ' ' :: s)) :
    ∀ r, prepare ext ≠ .ok r := by
  rintro ⟨op', cmd, args⟩ h
  obtain ⟨-, hq, htok, -⟩ := prepare_eq_ok_iff.mp h
  obtain ⟨ds, rfl, hquote, hback⟩ := hs.exists_unquoted
  obtain ⟨front, hmem, hfront⟩ := tokenize_append_open hopen hquote hback
  rw [hext] at htok
  rw [htok] at hmem
  have hin : byte '"' ∈ encodeRunes (front ++ ' ' :: ds) := by
    rw [encodeRunes_append, List.mem_append]
    refine Or.inl (List.mem_flatMap.mpr ⟨'"', hfront, ?_⟩)
    decide
  obtain ⟨v, hv⟩ := Option.ne_none_iff_exists'.mp (hq _ hmem hin)
  obtain ⟨quote, body, hshape, hmark⟩ := unquote_ends hv
  obtain ⟨t, ht⟩ : ∃ t, byte ' ' :: encodeRunes ds = t ++ [c] := List.getLast?_eq_some_iff.mp hlast
  have hend : encodeRunes (front ++ ' ' :: ds) = (encodeRunes front ++ t) ++ [c] := by
    have hblank : encodeRune ' ' = [byte ' '] := by decide
    rw [encodeRunes_append, encodeRunes_cons, hblank, List.append_assoc, ← ht]
    rfl
  rw [hend, ← List.cons_append] at hshape
  have heq := (List.append_inj' hshape rfl).2
  simp only [List.cons.injEq, and_true] at heq
  exact hc (heq ▸ hmark)

/-! ## What no argument changes -/

/-- The fields that are set before the argument loops start. -/
def Query.head (q : Query) : QueryType × Bytes × List Bytes × Bytes × Float64 :=
  (q.type, q.metric, q.metrics, q.operationID, q.value)

lemma head_assign (q : Query) (key value : Bytes) : (q.assign key value).head = q.head := by
  unfold Query.assign
  split_ifs <;> rfl

section Tables

variable {P : Query → Prop} {q : Query}

lemma ite_yields {c : Prop} [Decidable c] {a b : Arg} (ha : a.Yields P) (hb : b.Yields P) :
    (if c then a else b).Yields P := by
  split_ifs
  · exact ha
  · exact hb

lemma timeArg_yields {now : Int64} {missing : Bytes} {set : Int64 → Query} (h : ∀ ts, P (set ts)) :
    (timeArg now missing set).Yields P := by
  intro v q' hq'
  cases hts : parseTimeValue now v with
  | error e => simp [hts, bind, Except.bind] at hq'
  | ok ts =>
      obtain rfl : set ts = q' := by simpa [hts, bind, Except.bind, pure, Except.pure] using hq'
      exact h ts

lemma intArg_yields {name : Bytes} {set : ℤ → Query} (h : ∀ n, P (set n)) :
    (intArg name set).Yields P := by
  intro v q' hq'
  cases hn : parseInt v with
  | none => simp [hn] at hq'
  | some n =>
      obtain rfl : set n.toInt = q' := by simpa [hn] using hq'
      exact h _

lemma boardArg_yields (h : ∀ b, P { q with board := b }) : (boardArg q).Yields P := by
  intro v q' hq'
  simp only at hq'
  split_ifs at hq'
  obtain rfl : _ = q' := by simpa using hq'
  exact h _

lemma value_ok_yields {missing : Bytes} {f : Bytes → Query} (h : ∀ v, P (f v)) :
    (Arg.value missing fun v => .ok (f v)).Yields P := by
  intro v q' hq'
  obtain rfl : f v = q' := by simpa using hq'
  exact h v

lemma assign_ok_yields {i : Bytes} {n : Option Bytes} {f : Bytes → Query} (h : ∀ v, P (f v)) :
    (Arg.assign i n fun v => .ok (f v)).Yields P := by
  intro v q' hq'
  obtain rfl : f v = q' := by simpa using hq'
  exact h v

variable {R : Query → Query → Prop}

lemma ite_corresponds {c : Prop} [Decidable c] {a b a' b' : Arg} (ha : a.Corresponds R a')
    (hb : b.Corresponds R b') :
    (if c then a else b).Corresponds R (if c then a' else b') := by
  split_ifs
  · exact ha
  · exact hb

/-- A time that is read at one moment is read at any other. -/
lemma parseTimeValue_ok {now t : Int64} {token : Bytes} (h : parseTimeValue now token = .ok t)
    (now' : Int64) : ∃ t', parseTimeValue now' token = .ok t' := by
  obtain ⟨z, hz, -⟩ := map_eq_ok_iff.mp h
  suffices hsame : ∃ z', timeInstant now'.toInt token = .ok z' by
    obtain ⟨z', hz'⟩ := hsame
    exact ⟨_, map_eq_ok_iff.mpr ⟨z', hz', rfl⟩⟩
  simp only [timeInstant] at hz ⊢
  generalize tokenValue token = token at hz ⊢
  by_cases hrel : (bs "now").isPrefixOf token = true
  · rw [if_pos hrel] at hz ⊢
    by_cases hnow : token = bs "now"
    · exact ⟨_, if_pos hnow⟩
    · rw [if_neg hnow] at hz ⊢
      split_ifs at hz with hlen hop <;> rw [if_neg hlen, if_neg hop]
      all_goals
        obtain ⟨d, hd, -⟩ := bind_eq_ok_iff.mp hz
        exact ⟨_, bind_eq_ok_iff.mpr ⟨d, hd, rfl⟩⟩
  · rw [if_neg hrel] at hz ⊢
    exact ⟨z, hz⟩

lemma timeArg_corresponds {now now' : Int64} {missing : Bytes} {set set' : Int64 → Query}
    (h : ∀ t t', R (set t) (set' t')) :
    (timeArg now missing set).Corresponds R (timeArg now' missing set') := by
  intro v q' hq'
  obtain ⟨t, ht, hq'⟩ := bind_eq_ok_iff.mp hq'
  obtain rfl : set t = q' := by simpa [pure, Except.pure] using hq'
  obtain ⟨t', ht'⟩ := parseTimeValue_ok ht now'
  exact ⟨set' t', bind_eq_ok_iff.mpr ⟨t', ht', rfl⟩, h t t'⟩

lemma timeArg_corresponds_same {now : Int64} {missing : Bytes} {set set' : Int64 → Query}
    (h : ∀ t, R (set t) (set' t)) :
    (timeArg now missing set).Corresponds R (timeArg now missing set') := by
  intro v q' hq'
  obtain ⟨t, ht, hq'⟩ := bind_eq_ok_iff.mp hq'
  obtain rfl : set t = q' := by simpa [pure, Except.pure] using hq'
  exact ⟨set' t, bind_eq_ok_iff.mpr ⟨t, ht, rfl⟩, h t⟩

lemma assign_ok_corresponds {i i' : Bytes} {n : Option Bytes} {f f' : Bytes → Query}
    (h : ∀ v, R (f v) (f' v)) :
    (Arg.assign i n fun v => .ok (f v)).Corresponds R (.assign i' n fun v => .ok (f' v)) := by
  refine ⟨rfl, fun v q' hq' => ?_⟩
  obtain rfl : f v = q' := by simpa using hq'
  exact ⟨f' v, rfl, h v⟩

end Tables

/-- The argument leaves the head of the query alone. -/
abbrev KeepsHead (q : Query) : Arg → Prop := Arg.Yields fun q' => q'.head = q.head

lemma writeArg_head (q : Query) (key : Bytes) : KeepsHead q (writeArg q key) := by
  refine ite_yields rfl (ite_yields rfl (ite_yields rfl ?_))
  intro v q' hq'
  simp only at hq'
  split_ifs at hq'
  · cases hts : parseInt v with
    | none => simp [hts] at hq'
    | some ts =>
        obtain rfl : _ = q' := by simpa [hts] using hq'
        rfl
  · obtain rfl : _ = q' := by simpa using hq'
    exact head_assign q key v

lemma setArg_head (q : Query) (key : Bytes) : KeepsHead q (setArg q key) :=
  ite_yields rfl (ite_yields rfl (assign_ok_yields fun v => head_assign q key v))

lemma deleteArg_head (now : Int64) (q : Query) (key : Bytes) : KeepsHead q (deleteArg now q key) :=
  ite_yields (fun _ => rfl) <| ite_yields rfl <| ite_yields rfl <| ite_yields rfl <|
    ite_yields rfl <| ite_yields (timeArg_yields fun _ => rfl) <|
    ite_yields (timeArg_yields fun _ => rfl) (assign_ok_yields fun v => head_assign q key v)

lemma getArg_head (now : Int64) (q : Query) (key : Bytes) : KeepsHead q (getArg now q key) := by
  have hgroup : KeepsHead q (.groupBy fun v => do
      let dur ← parseDurationSpec (tokenValue v)
      return { q with groupBySpec := tokenValue v, groupBy := dur }) := by
    intro v q' hq'
    cases hd : parseDurationSpec (tokenValue v) with
    | error e => simp [hd, bind, Except.bind] at hq'
    | ok d =>
        obtain rfl : _ = q' := by simpa [hd, bind, Except.bind, pure, Except.pure] using hq'
        rfl
  exact ite_yields rfl <| ite_yields hgroup <| ite_yields (fun _ => rfl) <|
    ite_yields (timeArg_yields fun _ => rfl) <| ite_yields trivial <| ite_yields rfl <|
    ite_yields rfl <| ite_yields rfl <| ite_yields (timeArg_yields fun _ => rfl) <|
    ite_yields (intArg_yields fun _ => rfl) <| ite_yields (intArg_yields fun _ => rfl) <|
    ite_yields (value_ok_yields fun _ => rfl) <|
    ite_yields (ite_yields trivial (value_ok_yields fun _ => rfl)) <|
    ite_yields (ite_yields trivial (boardArg_yields fun _ => rfl)) trivial

lemma groupLeaderboardArg_head (now : Int64) (q : Query) (key : Bytes) :
    KeepsHead q (groupLeaderboardArg now q key) := by
  have hgroup : KeepsHead q (.value (bs "missing GROUP spec") fun v => do
      let g ← parseGroupSpec (tokenValue v)
      return { q with groups := q.groups ++ [g] }) := by
    intro v q' hq'
    cases hg : parseGroupSpec (tokenValue v) with
    | error e => simp [hg, bind, Except.bind] at hq'
    | ok g =>
        obtain rfl : _ = q' := by simpa [hg, bind, Except.bind, pure, Except.pure] using hq'
        rfl
  exact ite_yields rfl <| ite_yields hgroup <| ite_yields (timeArg_yields fun _ => rfl) <|
    ite_yields (timeArg_yields fun _ => rfl) <| ite_yields (intArg_yields fun _ => rfl) <|
    ite_yields (intArg_yields fun _ => rfl) <| ite_yields (value_ok_yields fun _ => rfl) <|
    ite_yields (value_ok_yields fun _ => rfl) <| ite_yields (boardArg_yields fun _ => rfl) trivial

lemma readArgs_head {table : Query → Bytes → Arg} (htable : ∀ q key, KeepsHead q (table q key))
    {q q' : Query} {args : List Bytes} (h : readArgs table q args = .ok q') : q'.head = q.head := by
  refine readArgs_invariant (P := fun q₁ => q₁.head = q.head) ?_ h rfl
  intro q₁ key hq₁
  rw [← hq₁]
  exact htable q₁ key

lemma ite_goes {c : Prop} [Decidable c] {a b : Arg} (ha : a.Goes) (hb : b.Goes) :
    (if c then a else b).Goes := by
  split_ifs
  · exact ha
  · exact hb

lemma writeArg_goes (q : Query) (key : Bytes) : (writeArg q key).Goes :=
  ite_goes trivial <| ite_goes trivial <| ite_goes trivial trivial

lemma deleteArg_goes (now : Int64) (q : Query) (key : Bytes) : (deleteArg now q key).Goes :=
  ite_goes trivial <| ite_goes trivial <| ite_goes trivial <| ite_goes trivial <|
    ite_goes trivial <| ite_goes trivial <| ite_goes trivial trivial

lemma getArg_goes (now : Int64) (q : Query) (key : Bytes) : (getArg now q key).Goes :=
  ite_goes trivial <| ite_goes trivial <| ite_goes trivial <| ite_goes trivial <|
    ite_goes trivial <| ite_goes trivial <| ite_goes trivial <| ite_goes trivial <|
    ite_goes trivial <| ite_goes trivial <| ite_goes trivial <| ite_goes trivial <|
    ite_goes (ite_goes trivial trivial) <| ite_goes (ite_goes trivial trivial) trivial

lemma groupLeaderboardArg_goes (now : Int64) (q : Query) (key : Bytes) :
    (groupLeaderboardArg now q key).Goes :=
  ite_goes trivial <| ite_goes trivial <| ite_goes trivial <| ite_goes trivial <|
    ite_goes trivial <| ite_goes trivial <| ite_goes trivial <| ite_goes trivial <|
    ite_goes trivial trivial

/-! ## What `Parse` returns -/

/-- The query keeps type and operation id, and its metric is made of characters of the
arguments. -/
structure ReadFrom (q : Query) (args : List Bytes) (q' : Query) : Prop where
  type : q'.type = q.type
  operationID : q'.operationID = q.operationID
  metric : ∀ b ∈ q'.metric, ∃ t ∈ args, b ∈ t

lemma readFrom_readArgs {table : Query → Bytes → Arg} (htable : ∀ q key, KeepsHead q (table q key))
    {q q₀ q' : Query} {args all : List Bytes} (h : readArgs table q₀ args = .ok q')
    (htype : q₀.type = q.type) (hop : q₀.operationID = q.operationID)
    (hmetric : ∀ b ∈ q₀.metric, ∃ t ∈ all, b ∈ t) : ReadFrom q all q' := by
  have hhead := readArgs_head htable h
  simp only [Query.head, Prod.mk.injEq] at hhead
  obtain ⟨h1, h2, -, h4, -⟩ := hhead
  exact ⟨h1.trans htype, h4.trans hop, h2 ▸ hmetric⟩

lemma readFrom_parseMetrics {q q' : Query} {args : List Bytes} (hm : q.metric = [])
    (h : parseMetrics q args = .ok q') : ReadFrom q args q' := by
  unfold parseMetrics at h
  obtain ⟨p, -, h⟩ := bind_eq_ok_iff.mp h
  simp only at h
  split at h
  · obtain rfl : _ = q' := by simpa [pure, Except.pure] using h
    exact ⟨rfl, rfl, by simp [hm]⟩
  · split_ifs at h
    obtain rfl : _ = q' := by simpa [pure, Except.pure] using h
    exact ⟨rfl, rfl, by simp [hm]⟩

lemma readFrom_parseStats {q q' : Query} {args : List Bytes} (h : parseStats q args = .ok q') :
    ReadFrom q args q' := by
  cases args with
  | nil => simp [parseStats] at h
  | cons metric args =>
      have hmetric : ∀ b ∈ metric, ∃ t ∈ metric :: args, b ∈ t := fun b hb => ⟨metric, by simp, hb⟩
      cases args with
      | nil =>
          obtain rfl : _ = q' := by simpa [parseStats] using h
          exact ⟨rfl, rfl, hmetric⟩
      | cons tags keys =>
          simp only [parseStats] at h
          split_ifs at h <;> obtain rfl : _ = q' := by simpa using h
          · exact ⟨rfl, rfl, hmetric⟩
          · exact ⟨rfl, rfl, hmetric⟩

lemma parseValue_eq_ok_iff {usage : Bytes} {table : Query → Bytes → Arg} {q q' : Query}
    {tokens : List Bytes} :
    parseValue usage table q tokens = .ok q' ↔
      ∃ metric value args v, tokens = metric :: value :: args ∧ parseFloat value = some v ∧
        readArgs table { q with metric := metric, value := v } args = .ok q' := by
  rcases tokens with _ | ⟨metric, _ | ⟨value, args⟩⟩
  · simp [parseValue]
  · simp [parseValue]
  · simp only [parseValue]
    cases hv : parseFloat value with
    | none => simp [hv]
    | some v => simp [hv, and_assoc]

lemma parseMetric_eq_ok_iff {usage : Bytes} {table : Query → Bytes → Arg} {q q' : Query}
    {tokens : List Bytes} :
    parseMetric usage table q tokens = .ok q' ↔
      ∃ metric args, tokens = metric :: args ∧
        readArgs table { q with metric := metric } args = .ok q' := by
  cases tokens <;> simp [parseMetric, and_assoc]

lemma readFrom_parseValue {usage : Bytes} {table : Query → Bytes → Arg}
    (htable : ∀ q key, KeepsHead q (table q key)) {q q' : Query} {args : List Bytes}
    (h : parseValue usage table q args = .ok q') : ReadFrom q args q' := by
  obtain ⟨metric, value, args, v, rfl, -, h⟩ := parseValue_eq_ok_iff.mp h
  exact readFrom_readArgs htable h rfl rfl fun b hb => ⟨metric, by simp, hb⟩

lemma readFrom_parseMetric {usage : Bytes} {table : Query → Bytes → Arg}
    (htable : ∀ q key, KeepsHead q (table q key)) {q q' : Query} {args : List Bytes}
    (h : parseMetric usage table q args = .ok q') : ReadFrom q args q' := by
  obtain ⟨metric, args, rfl, h⟩ := parseMetric_eq_ok_iff.mp h
  exact readFrom_readArgs htable h rfl rfl fun b hb => ⟨metric, by simp, hb⟩

lemma mem_of_mem_splitMetrics {s m : Bytes} (h : m ∈ splitMetrics s) {b : UInt8} (hb : b ∈ m) :
    b ∈ s := by
  obtain ⟨part, hpart, rfl⟩ := List.mem_map.mp (List.mem_of_mem_filter h)
  exact (of_mem_of_mem_split hpart (mem_of_mem_trimSpace hb)).1

lemma readFrom_parseGet {now : Int64} {q q' : Query} {args : List Bytes}
    (h : parseGet now q args = .ok q') : ReadFrom q args q' := by
  cases args with
  | nil => simp [parseGet] at h
  | cons token args =>
      simp only [parseGet] at h
      cases hs : splitMetrics token with
      | nil => simp [hs] at h
      | cons metric metrics =>
          simp only [hs] at h
          refine readFrom_readArgs (getArg_head now) h rfl rfl fun b hb => ⟨token, by simp, ?_⟩
          exact mem_of_mem_splitMetrics (m := metric) (by simp [hs]) hb

lemma readFrom_parseLeaderboard {now : Int64} {q q' : Query} {args : List Bytes}
    (h : parseLeaderboard now q args = .ok q') : ReadFrom q args q' := by
  cases args with
  | nil => simp [parseLeaderboard] at h
  | cons token args =>
      simp only [parseLeaderboard] at h
      split_ifs at h
      exact readFrom_readArgs (getArg_head now) h rfl rfl fun b hb => ⟨token, by simp, hb⟩

lemma parseCommand_eq_ok_iff {now : Int64} {op cmd : Bytes} {args : List Bytes} {q : Query} :
    parseCommand now op cmd args = .ok q ↔
      ∃ c, commandOf cmd = some c ∧ c.parse now (c.start op cmd) args = .ok q := by
  unfold parseCommand
  cases commandOf cmd <;> simp

/-- A command keeps the type and the operation id it starts from and reads its metric from the
arguments. -/
lemma Command.parse_readFrom {now : Int64} {c : Command} {op cmd : Bytes} {args : List Bytes}
    {q : Query} (h : c.parse now (c.start op cmd) args = .ok q) :
    ReadFrom (c.start op cmd) args q := by
  cases c with
  | metrics => exact readFrom_parseMetrics rfl h
  | stats => exact readFrom_parseStats h
  | groupLeaderboard => exact readFrom_parseMetric (groupLeaderboardArg_head now) h
  | write => exact readFrom_parseValue writeArg_head h
  | set => exact readFrom_parseValue setArg_head h
  | delete => exact readFrom_parseMetric (deleteArg_head now) h
  | get => exact readFrom_parseGet h
  | leaderboard => exact readFrom_parseLeaderboard h

lemma parseCommand_readFrom {now : Int64} {op cmd : Bytes} {args : List Bytes} {q : Query}
    (h : parseCommand now op cmd args = .ok q) :
    q.operationID = op ∧ ∀ b ∈ q.metric, ∃ t ∈ args, b ∈ t := by
  obtain ⟨c, -, hc⟩ := parseCommand_eq_ok_iff.mp h
  have hfrom := Command.parse_readFrom hc
  exact ⟨hfrom.operationID, hfrom.metric⟩

/-- Parsing with the checks behind it. -/
lemma validated_eq_ok_iff {x : Except Bytes Query} {q : Query} :
    (do let q ← x; validateQuery q; return q : Except Bytes Query) = .ok q ↔
      x = .ok q ∧ validateQuery q = .ok () := by
  cases x with
  | error e => simp [bind, Except.bind]
  | ok q₀ =>
      cases hv : validateQuery q₀ with
      | error e =>
          simp only [bind, Except.bind, hv]
          constructor
          · intro h
            simp at h
          · rintro ⟨h, h'⟩
            obtain rfl : q₀ = q := by simpa using h
            simp [hv] at h'
      | ok u =>
          simp only [bind, Except.bind, hv, pure, Except.pure]
          constructor
          · intro h
            obtain rfl : q₀ = q := by simpa using h
            exact ⟨rfl, hv⟩
          · exact fun h => h.1

lemma parse_eq_ok_iff {now : Int64} {line : Bytes} {q : Query} :
    parse now line = .ok q ↔ parseUnchecked now line = .ok q ∧ validateQuery q = .ok () :=
  validated_eq_ok_iff

lemma parsePlain_eq_ok_iff {now : Int64} {line : Bytes} {q : Query} :
    parsePlain now line = .ok q ↔
      ∃ op cmd args, prepare line = .ok (op, cmd, args) ∧ parseCommand now op cmd args = .ok q ∧
        validateQuery q = .ok () := by
  unfold parsePlain
  cases hp : prepare line with
  | error e => simp [bind, Except.bind]
  | ok p =>
      obtain ⟨op, cmd, args⟩ := p
      have := validated_eq_ok_iff (x := parseCommand now op cmd args) (q := q)
      simp only [bind, Except.bind] at this ⊢
      simpa using this

lemma parseUnchecked_eq_ok_iff {now : Int64} {line : Bytes} {q : Query} :
    parseUnchecked now line = .ok q ↔
      ∃ op cmd args, prepare line = .ok (op, cmd, args) ∧ parseTokens now op cmd args = .ok q := by
  unfold parseUnchecked
  rw [bind_eq_ok_iff]
  simp

/-- The queries that come from a line. -/
def Parsed (q : Query) : Prop := ∃ now line, parse now line = .ok q

lemma unitSep_notMem_of_prepare {line op cmd : Bytes} {args : List Bytes}
    (h : prepare line = .ok (op, cmd, args)) : ∀ t ∈ args, unitSep ∉ t := by
  obtain ⟨hclean, -, htok, -⟩ := prepare_eq_ok_iff.mp h
  intro t ht hmem
  have hin : unitSep ∈ (cutOperationID line).2 :=
    mem_of_mem_tokenize (t := t) (by rw [htok]; exact List.mem_cons_of_mem _ ht) hmem (by decide)
  have hline : unitSep ∈ line := by
    rcases cutOperationID_spec line with hcut | ⟨-, hcut⟩
    · rwa [hcut] at hin
    · rw [hcut]
      simp [hin]
  exact hclean _ hline (by decide)

lemma unitSep_notMem_of_parsePlain {now : Int64} {line : Bytes} {q : Query}
    (h : parsePlain now line = .ok q) : unitSep ∉ q.metric := by
  obtain ⟨op, cmd, args, hp, hc, -⟩ := parsePlain_eq_ok_iff.mp h
  intro hmem
  obtain ⟨t, ht, htm⟩ := (parseCommand_readFrom hc).2 _ hmem
  exact unitSep_notMem_of_prepare hp t ht htm

/-- What a ranking command is turned into. -/
lemma parseRanking_eq_ok {now : Int64} {cmd : Bytes} {type : QueryType} {args : List Bytes}
    {q : Query} (h : parseRanking now cmd type args = .ok q) :
    ∃ metric rest entity radius tail q₀, args = metric :: rest ∧
      rankingArgs cmd type rest = .ok (entity, radius, tail) ∧
      parsePlain now (bs "LEADERBOARD " ++ metric ++ bs " " ++ joinSpace tail) = .ok q₀ ∧
      q = { q₀ with type := type, entityID := entity, radius := radius } := by
  cases args with
  | nil => simp [parseRanking] at h
  | cons metric rest =>
      obtain ⟨⟨entity, radius, tail⟩, hargs, h⟩ := bind_eq_ok_iff.mp h
      obtain ⟨q₀, hq₀, h⟩ := bind_eq_ok_iff.mp h
      obtain rfl : _ = q := by simpa [pure, Except.pure] using h
      exact ⟨metric, rest, entity, radius, tail, q₀, rfl, hargs, hq₀, rfl⟩

lemma rankingType_type {cmd : Bytes} {type : QueryType} (h : rankingType cmd = some type) :
    type = .rank ∨ type = .score ∨ type = .around ∨ type = .leaderboardCount := by
  simp only [rankingType, List.lookup] at h
  repeat' split at h
  all_goals simp_all

/-- How a line that is not a ranking command was read. -/
structure ReadAs (now : Int64) (line : Bytes) (q : Query) (c : Command) (cmd : Bytes)
    (args : List Bytes) : Prop where
  prepared : prepare line = .ok (q.operationID, cmd, args)
  plain : rankingType cmd = none
  command : commandOf cmd = some c
  parsed : c.parse now (c.start q.operationID cmd) args = .ok q
  valid : validateQuery q = .ok ()

lemma exists_readAs {now : Int64} {line : Bytes} {q : Query} (h : parse now line = .ok q)
    (hr : q.type ∉ [QueryType.rank, .score, .around, .leaderboardCount]) :
    ∃ c cmd args, ReadAs now line q c cmd args := by
  obtain ⟨hun, hval⟩ := parse_eq_ok_iff.mp h
  obtain ⟨op, cmd, args, hp, hun⟩ := parseUnchecked_eq_ok_iff.mp hun
  unfold parseTokens at hun
  cases hrank : rankingType cmd with
  | some type =>
      simp only [hrank] at hun
      obtain ⟨_, _, _, _, _, _, -, -, -, rfl⟩ := parseRanking_eq_ok hun
      exact absurd (by simpa using rankingType_type hrank) hr
  | none =>
      simp only [hrank] at hun
      obtain ⟨c, hc, hparsed⟩ := parseCommand_eq_ok_iff.mp hun
      obtain rfl := (Command.parse_readFrom hparsed).operationID
      exact ⟨c, cmd, args, hp, hrank, hc, hparsed, hval⟩

namespace ReadAs

variable {now : Int64} {line cmd : Bytes} {q : Query} {c : Command} {args : List Bytes}
  (h : ReadAs now line q c cmd args)

include h

lemma type_eq : q.type = c.type := (Command.parse_readFrom h.parsed).type

/-- A line read without an operation id has none at its end. -/
lemma cutOperationID_eq (hop : q.operationID = []) : cutOperationID line = ([], line) := by
  obtain ⟨-, -, -, hcut⟩ := prepare_eq_ok_iff.mp h.prepared
  rcases cutOperationID_spec line with hnone | ⟨hid, -⟩
  · exact hnone
  · rw [hcut, hop] at hid
    simp [IsOperationID] at hid

/-- **A closed line with text behind it** is the same command with more arguments. -/
lemma parseUnchecked_append (hclosed : Closed (cutOperationID line).2) {s op ext : Bytes}
    (hext : cutOperationID ext = (op, (cutOperationID line).2 ++ byte ' ' :: s))
      (hclean : Clean ext)
    (hs : Quoted (tokenize s)) (now' : Int64) :
    parseUnchecked now' ext = c.parse now' (c.start op cmd) (args ++ tokenize s) := by
  have hprep := prepare_append h.prepared hclosed hext hclean hs
  simp only [parseUnchecked, hprep, parseTokens, h.plain, parseCommand, h.command,
    bind, Except.bind]

lemma clean : Clean line := (prepare_eq_ok_iff.mp h.prepared).1

end ReadAs

/-- **A parsed query is admitted.** -/
theorem Parsed.admitted {q : Query} (h : Parsed q) : Admitted q := by
  obtain ⟨now, line, h⟩ := h
  obtain ⟨hun, hval⟩ := parse_eq_ok_iff.mp h
  refine ⟨hval, ?_⟩
  obtain ⟨op, cmd, args, hp, hun⟩ := parseUnchecked_eq_ok_iff.mp hun
  unfold parseTokens at hun
  cases hr : rankingType cmd with
  | none =>
      simp only [hr] at hun
      intro hmem
      obtain ⟨t, ht, htm⟩ := (parseCommand_readFrom hun).2 _ hmem
      exact unitSep_notMem_of_prepare hp t ht htm
  | some type =>
      simp only [hr] at hun
      obtain ⟨_, _, _, _, _, q₀, -, -, hq₀, rfl⟩ := parseRanking_eq_ok hun
      show unitSep ∉ q₀.metric
      exact unitSep_notMem_of_parsePlain hq₀

end FlameDB
