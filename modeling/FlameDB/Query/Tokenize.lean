import FlameDB.Go.Strconv

/-!
# The tokenizer

`tokenize` splits a line at spaces and around `=`, outside double quotes.  It runs over the runes of
the line with a small state: the tokens so far, the current one, whether a quote is open and
whether the next rune is escaped.

A line is *closed* when no quote is open at its end.  Appending text to a line is what forwarding
and replication do, and it acts on the tokens in one of two ways:

* `tokenize_append` — after a closed line the text is read as tokens of its own;
* `tokenize_append_open` — after an open one it is swallowed by the last token, which then does not
  end with a quote.

`tokenize_words` is the third fact about text built from words: joined with blanks, closed words are
tokenized one by one; in particular the tokens of a closed line come back (`tokenize_tokens`), and
those of any line as long as its last token stays the last (`tokenize_rejoin`).
-/

namespace FlameDB

open Go

/-- The state of the tokenizer between two characters. -/
structure TokState where
  tokens : List (List Char) := []
  current : List Char := []
  inQuote : Bool := false
  escaped : Bool := false
  deriving DecidableEq

namespace TokState

/-- End the current token, if there is one. -/
def flush (s : TokState) : TokState :=
  if s.current = [] then s else { s with tokens := s.tokens ++ [s.current], current := [] }

def write (s : TokState) (ch : Char) : TokState := { s with current := s.current ++ [ch] }

/-- The body of the loop of `tokenize`. -/
def step (s : TokState) (ch : Char) : TokState :=
  if s.escaped then { s.write ch with escaped := false }
  else if s.inQuote ∧ ch = '\\' then { s.write ch with escaped := true }
  else if ch = '"' then { s.write ch with inQuote := !s.inQuote }
  else if (ch = ' ' ∨ ch = '\n' ∨ ch = '\t') ∧ ¬ s.inQuote then s.flush
  else if ch = '=' ∧ ¬ s.inQuote then { s.flush with tokens := s.flush.tokens ++ [['=']] }
  else s.write ch

def run (s : TokState) (cs : List Char) : TokState := cs.foldl step s

end TokState

/-- The tokens of a line of characters. -/
def tokenizeRunes (cs : List Char) : List (List Char) := (TokState.run {} cs).flush.tokens

/-- The tokens of a line; invalid UTF-8 becomes the replacement character. -/
def tokenize (input : Bytes) : List Bytes := (tokenizeRunes (runes input)).map encodeRunes

/-- No quote is open at the end of the text. -/
def ClosedRunes (cs : List Char) : Prop := (TokState.run {} cs).inQuote = false

instance (cs : List Char) : Decidable (ClosedRunes cs) := inferInstanceAs (Decidable (_ = false))

/-- The line ends outside quotes. -/
def Closed (line : Bytes) : Prop := ClosedRunes (runes line)

instance (line : Bytes) : Decidable (Closed line) := inferInstanceAs (Decidable (ClosedRunes _))

/-! ## One step

The tokens read so far have no influence on the steps that follow. -/

namespace TokState

/-- The tokens read before do not matter. -/
def after (pre : List (List Char)) (s : TokState) : TokState := { s with tokens := pre ++ s.tokens }

lemma flush_after (pre : List (List Char)) (s : TokState) :
    (s.after pre).flush = s.flush.after pre := by
  unfold flush after
  split_ifs <;> simp

lemma step_after (pre : List (List Char)) (s : TokState) (ch : Char) :
    (s.after pre).step ch = (s.step ch).after pre := by
  have hflush := flush_after pre s
  unfold step
  simp only [show (s.after pre).escaped = s.escaped from rfl,
    show (s.after pre).inQuote = s.inQuote from rfl, hflush]
  split_ifs <;> simp [after, write]

lemma run_after (pre : List (List Char)) (s : TokState) (cs : List Char) :
    (s.after pre).run cs = (s.run cs).after pre := by
  induction cs generalizing s with
  | nil => rfl
  | cons ch cs ih =>
      simp only [run, List.foldl_cons] at ih ⊢
      rw [step_after, ih]

lemma run_append (s : TokState) (cs ds : List Char) : s.run (cs ++ ds) = (s.run cs).run ds :=
  List.foldl_append

/-- A token that can stand alone: read from the start, it is the current token and nothing else
happens. -/
def IsWord (t : List Char) : Prop := t ≠ [] ∧ TokState.run {} t = { current := t }

/-- What holds after every step: an escape only happens inside a quote, an open quote has been
written, and the current token read from the start leads to the same state.  The finished tokens
are words or the equals sign. -/
structure Inv (s : TokState) : Prop where
  escaped : s.escaped = true → s.inQuote = true
  quote : s.inQuote = true → '"' ∈ s.current
  current : TokState.run {} s.current = { s with tokens := [] }
  words : ∀ t ∈ s.tokens, IsWord t ∨ t = ['=']

lemma inv_init : Inv {} :=
  ⟨by simp, by simp, rfl, by simp⟩

lemma Inv.isWord {s : TokState} (h : s.Inv) (hq : s.inQuote = false) (hne : s.current ≠ []) :
    IsWord s.current := by
  refine ⟨hne, ?_⟩
  have hesc : s.escaped = false := by
    by_contra he
    simp [h.escaped (by simpa using he)] at hq
  rw [h.current, hq, hesc]

lemma Inv.flush {s : TokState} (h : s.Inv) (hq : s.inQuote = false) : s.flush.Inv := by
  have hesc : s.escaped = false := by
    by_contra he
    simp [h.escaped (by simpa using he)] at hq
  unfold TokState.flush
  split_ifs with hc
  · exact h
  · refine ⟨by simp [hesc], by simp [hq], by simp [run, hq, hesc], ?_⟩
    intro t ht
    rcases List.mem_append.mp ht with ht | ht
    · exact h.words t ht
    · rw [List.mem_singleton.mp ht]
      exact Or.inl (h.isWord hq hc)

/-- A rune that is written keeps the invariant. -/
lemma Inv.write {s : TokState} (h : s.Inv) {ch : Char} {q e : Bool}
    (hstep : ∀ pre : List (List Char), ({ s with tokens := pre } : TokState).step ch =
      { s with tokens := pre, current := s.current ++ [ch], inQuote := q, escaped := e })
    (he : e = true → q = true) (hq : q = true → '"' ∈ s.current ++ [ch]) : (s.step ch).Inv := by
  have hs : s.step ch = { s with current := s.current ++ [ch], inQuote := q, escaped := e } :=
    hstep s.tokens
  rw [hs]
  refine ⟨he, hq, ?_, h.words⟩
  rw [show (_ : TokState).current = s.current ++ [ch] from rfl, run_append, h.current]
  exact hstep []

/-- Every character keeps the invariant. -/
lemma Inv.step {s : TokState} (h : s.Inv) (ch : Char) : (s.step ch).Inv := by
  have hmem : ∀ {x : Char}, '"' ∈ s.current → '"' ∈ s.current ++ [x] := fun hx =>
    List.mem_append_left _ hx
  by_cases hesc : s.escaped = true
  · exact h.write (q := s.inQuote) (e := false)
      (fun pre => by simp [TokState.step, TokState.write, hesc]) (by simp) fun hq =>
        hmem (h.quote hq)
  by_cases hback : s.inQuote = true ∧ ch = '\\'
  · exact h.write (q := s.inQuote) (e := true)
      (fun pre => by simp [TokState.step, TokState.write, hesc, hback]) (fun _ => hback.1)
      fun hq => hmem (h.quote hq)
  by_cases hquote : ch = '"'
  · subst hquote
    exact h.write (q := !s.inQuote) (e := s.escaped)
      (fun pre => by simp [TokState.step, TokState.write, hesc]) (by simp [hesc]) (by simp)
  by_cases hblank : (ch = ' ' ∨ ch = '\n' ∨ ch = '\t') ∧ ¬ s.inQuote = true
  · have hs : s.step ch = s.flush := by
      unfold TokState.step
      rw [if_neg hesc, if_neg hback, if_neg hquote, if_pos hblank]
    rw [hs]
    exact h.flush (by simpa using hblank.2)
  by_cases heq : ch = '=' ∧ ¬ s.inQuote = true
  · have hs : s.step ch = { s.flush with tokens := s.flush.tokens ++ [['=']] } := by
      unfold TokState.step
      rw [if_neg hesc, if_neg hback, if_neg hquote, if_neg hblank, if_pos heq]
    have hf := h.flush (by simpa using heq.2)
    rw [hs]
    refine ⟨hf.escaped, hf.quote, hf.current, fun t ht => ?_⟩
    rcases List.mem_append.mp ht with ht | ht
    · exact hf.words t ht
    · exact Or.inr (List.mem_singleton.mp ht)
  · refine h.write (q := s.inQuote) (e := s.escaped) (fun pre => ?_) (by simp [hesc])
      fun hq => hmem (h.quote hq)
    unfold TokState.step
    rw [if_neg hesc, if_neg hback, if_neg hquote, if_neg hblank, if_neg heq]
    rfl

lemma inv_run (cs : List Char) : (TokState.run {} cs).Inv := by
  induction cs using List.reverseRecOn with
  | nil => exact inv_init
  | append_singleton cs ch ih =>
      rw [run_append]
      exact ih.step ch

end TokState

/-! ## The characters of tokens -/

/-- Tokens are made of characters of the line. -/
lemma TokState.mem_of_mem_run (cs : List Char) :
    (∀ t ∈ (TokState.run {} cs).tokens, t ⊆ cs) ∧ (TokState.run {} cs).current ⊆ cs := by
  induction cs using List.reverseRecOn with
  | nil => simp [TokState.run]
  | append_singleton cs ch ih =>
      rw [run_append]
      generalize TokState.run {} cs = s at ih
      obtain ⟨htok, hcur⟩ := ih
      have hkeep : ∀ {l : List Char}, l ⊆ cs → l ⊆ cs ++ [ch] := fun h =>
        List.Subset.trans h (List.subset_append_left _ _)
      have hwrite : s.current ++ [ch] ⊆ cs ++ [ch] :=
        List.append_subset.mpr ⟨hkeep hcur, List.subset_append_right _ _⟩
      have hflush : (∀ t ∈ s.flush.tokens, t ⊆ cs) ∧ s.flush.current ⊆ cs := by
        unfold TokState.flush
        split_ifs
        · exact ⟨htok, hcur⟩
        · refine ⟨fun t ht => ?_, by simp⟩
          rcases List.mem_append.mp ht with ht | ht
          · exact htok t ht
          · rw [List.mem_singleton.mp ht]
            exact hcur
      simp only [run, List.foldl_cons, List.foldl_nil]
      unfold TokState.step
      split_ifs with h1 h2 h3 h4 h5
      · exact ⟨fun t ht => hkeep (htok t ht), hwrite⟩
      · exact ⟨fun t ht => hkeep (htok t ht), hwrite⟩
      · exact ⟨fun t ht => hkeep (htok t ht), hwrite⟩
      · exact ⟨fun t ht => hkeep (hflush.1 t ht), hkeep hflush.2⟩
      · refine ⟨fun t ht => ?_, hkeep hflush.2⟩
        rcases List.mem_append.mp ht with ht | ht
        · exact hkeep (hflush.1 t ht)
        · rw [List.mem_singleton.mp ht, ← h5.1]
          exact List.subset_append_right _ _
      · exact ⟨fun t ht => hkeep (htok t ht), hwrite⟩

lemma subset_of_mem_tokenizeRunes {cs t : List Char} (h : t ∈ tokenizeRunes cs) : t ⊆ cs := by
  obtain ⟨htok, hcur⟩ := TokState.mem_of_mem_run cs
  unfold tokenizeRunes TokState.flush at h
  split_ifs at h
  · exact htok t h
  · rcases List.mem_append.mp h with h | h
    · exact htok t h
    · rw [List.mem_singleton.mp h]
      exact hcur

/-- An ASCII character of a token is one of the line. -/
lemma mem_of_mem_tokenize {line t : Bytes} {b : UInt8} (ht : t ∈ tokenize line) (hb : b ∈ t)
    (hascii : b < 0x80) : b ∈ line := by
  obtain ⟨cs, hcs, rfl⟩ := List.mem_map.mp ht
  obtain ⟨c, hc, hlt, rfl⟩ := mem_encodeRunes_ascii hb hascii
  exact mem_of_mem_runes (subset_of_mem_tokenizeRunes hcs hc) hlt

/-! ## Appending to a closed line

The server appends words to a client's line. They are tokens of their own when the line ends outside
quotes. -/

lemma not_escaped_of_closed {cs : List Char} (h : ClosedRunes cs) :
    (TokState.run {} cs).escaped = false := by
  by_contra he
  have := (TokState.inv_run cs).escaped (by simpa using he)
  rw [h] at this
  simp at this

/-- The runes that end a token and are dropped. -/
def blanks : List Char := [' ', '\n', '\t']

lemma run_blank {cs : List Char} (h : ClosedRunes cs) {ch : Char} (hch : ch ∈ blanks) :
    TokState.run {} (cs ++ [ch]) = TokState.after (tokenizeRunes cs) {} := by
  have hq : (TokState.run {} cs).inQuote = false := h
  have hesc := not_escaped_of_closed h
  rw [TokState.run_append]
  unfold tokenizeRunes
  generalize TokState.run {} cs = s at *
  have hstep : s.run [ch] = s.flush := by
    simp only [blanks, List.mem_cons, List.not_mem_nil, or_false] at hch
    rcases hch with rfl | rfl | rfl <;> simp [TokState.run, TokState.step, hq, hesc]
  rw [hstep]
  cases s
  simp only at hq hesc
  subst hq hesc
  unfold TokState.flush TokState.after
  split_ifs with hc
  · simp only [List.append_nil, TokState.mk.injEq, and_true, true_and]
    exact hc
  · simp

lemma tokenizeRunes_append {cs : List Char} (h : ClosedRunes cs) {ch : Char} (hch : ch ∈ blanks)
    (ds : List Char) : tokenizeRunes (cs ++ ch :: ds) = tokenizeRunes cs ++ tokenizeRunes ds := by
  rw [List.append_cons]
  nth_rewrite 1 [tokenizeRunes]
  rw [TokState.run_append, run_blank h hch, TokState.run_after, TokState.flush_after]
  rfl

lemma closedRunes_append {cs : List Char} (h : ClosedRunes cs) (ds : List Char) :
    ClosedRunes (cs ++ ' ' :: ds) ↔ ClosedRunes ds := by
  unfold ClosedRunes
  rw [List.append_cons, TokState.run_append, run_blank h (by decide), TokState.run_after]
  rfl

lemma runes_append_blank (line s : Bytes) :
    runes (line ++ byte ' ' :: s) = runes line ++ ' ' :: runes s := by
  rw [runes_append_cons line (by decide) s]
  congr 1
  exact runes_encodeRune_append ' ' s

/-- **After a closed line, appended text is read as tokens of its own.** -/
theorem tokenize_append {line : Bytes} (h : Closed line) (s : Bytes) :
    tokenize (line ++ byte ' ' :: s) = tokenize line ++ tokenize s := by
  have hblank : ' ' ∈ blanks := by decide
  simp only [tokenize, runes_append_blank, tokenizeRunes_append h hblank, List.map_append]

lemma closed_append {line : Bytes} (h : Closed line) (s : Bytes) :
    Closed (line ++ byte ' ' :: s) ↔ Closed s := by
  unfold Closed
  rw [runes_append_blank]
  exact closedRunes_append h _

/-! ## Appending to an open line

Otherwise the appended text continues the quoted token. -/

/-- Inside a quote, runes that are neither quotes nor backslashes are written. -/
lemma run_open {s : TokState} (hq : s.inQuote = true) {ds : List Char} (hquote : '"' ∉ ds)
    (hback : '\\' ∉ ds) :
    (s.run ds).inQuote = true ∧ (s.run ds).current = s.current ++ ds := by
  induction ds generalizing s with
  | nil => simp [TokState.run, hq]
  | cons ch ds ih =>
      simp only [List.mem_cons, not_or] at hquote hback
      have hstep : (s.step ch).inQuote = true ∧ (s.step ch).current = s.current ++ [ch] := by
        unfold TokState.step
        simp only [hq, not_true_eq_false, and_false, if_false, Ne.symm hquote.1,
          Ne.symm hback.1]
        split_ifs <;> exact ⟨hq, rfl⟩
      obtain ⟨h1, h2⟩ := ih hstep.1 hquote.2 hback.2
      refine ⟨h1, ?_⟩
      rw [hstep.2, List.append_assoc] at h2
      exact h2

/-- **After an open line, appended text is swallowed** by a token that contains a quote and ends as
the text does. -/
theorem tokenize_append_open {line : Bytes} (h : ¬ Closed line) {ds : List Char} (hquote : '"' ∉ ds)
    (hback : '\\' ∉ ds) :
    ∃ front, encodeRunes (front ++ ' ' :: ds) ∈ tokenize (line ++ byte ' ' :: encodeRunes ds) ∧
      '"' ∈ front := by
  have hq : (TokState.run {} (runes line)).inQuote = true := by simpa [Closed, ClosedRunes] using h
  have hinv := TokState.inv_run (runes line)
  have hquote' : '"' ∉ ' ' :: ds := by simp [hquote]
  have hback' : '\\' ∉ ' ' :: ds := by simp [hback]
  obtain ⟨-, hcur⟩ := run_open hq hquote' hback'
  refine ⟨(TokState.run {} (runes line)).current, ?_, hinv.quote hq⟩
  simp only [tokenize, runes_append_blank, runes_encodeRunes, tokenizeRunes, TokState.run_append]
  refine List.mem_map_of_mem ?_
  unfold TokState.flush
  rw [if_neg (by simp [hcur])]
  simp [hcur]

/-! ## Plain words -/

/-- Printable ASCII text without quotes and escapes. -/
def PlainText (s : Bytes) : Prop := ∀ b ∈ s, 0x20 ≤ b ∧ b < 0x7F ∧ b ∉ bs "\"\\"

/-- A word the tokenizer leaves as it is. -/
def PlainWord (w : Bytes) : Prop := w ≠ [] ∧ ∀ b ∈ w, 0x20 < b ∧ b < 0x7F ∧ b ∉ bs "=\"\\"

instance (s : Bytes) : Decidable (PlainText s) := inferInstanceAs (Decidable (∀ b ∈ s, _))

instance (w : Bytes) : Decidable (PlainWord w) := inferInstanceAs (Decidable (_ ∧ _))

lemma PlainText.append {s t : Bytes} (hs : PlainText s) (ht : PlainText t) :
    PlainText (s ++ t) := by
  intro b hb
  rcases List.mem_append.mp hb with h | h
  · exact hs b h
  · exact ht b h

lemma PlainWord.plainText {w : Bytes} (h : PlainWord w) : PlainText w := by
  have hbyte : ∀ b : UInt8, 0x20 < b ∧ b < 0x7F ∧ b ∉ bs "=\"\\" →
      0x20 ≤ b ∧ b < 0x7F ∧ b ∉ bs "\"\\" := forall_uint8 (by decide +kernel)
  exact fun b hb => hbyte b (h.2 b hb)

lemma PlainText.joinSpace {ws : List Bytes} (h : ∀ w ∈ ws, PlainText w) :
    PlainText (joinSpace ws) := by
  intro b hb
  rcases mem_joinSpace hb with rfl | ⟨w, hw, hbw⟩
  · decide
  · exact h w hw b hbw

/-- The runes of a plain text, one per byte. -/
lemma PlainText.exists_runes {s : Bytes} (h : PlainText s) :
    ∃ ds, s = encodeRunes ds ∧ ∀ c ∈ ds, byte c ∈ s ∧ c = Char.ofNat (byte c).toNat := by
  have hascii : ∀ b : UInt8, b < 0x7F → b < 0x80 ∧ byte (Char.ofNat b.toNat) = b :=
    forall_uint8 (by decide +kernel)
  refine ⟨s.map fun b => Char.ofNat b.toNat,
    (encodeRunes_map_ascii fun b hb => (hascii b (h b hb).2.1).1).symm, fun c hc => ?_⟩
  obtain ⟨b, hb, rfl⟩ := List.mem_map.mp hc
  rw [(hascii b (h b hb).2.1).2]
  exact ⟨hb, rfl⟩

lemma PlainText.exists_unquoted {s : Bytes} (h : PlainText s) :
    ∃ ds, s = encodeRunes ds ∧ '"' ∉ ds ∧ '\\' ∉ ds := by
  obtain ⟨ds, hs, hds⟩ := h.exists_runes
  exact ⟨ds, hs, fun hmem => (h _ (hds _ hmem).1).2.2 (by decide),
    fun hmem => (h _ (hds _ hmem).1).2.2 (by decide)⟩

lemma run_plain {s : TokState} (hq : s.inQuote = false) (hesc : s.escaped = false) {ds : List Char}
    (h : ∀ c ∈ ds, c ∉ '=' :: '"' :: blanks) :
    s.run ds = { s with current := s.current ++ ds } := by
  induction ds generalizing s with
  | nil => simp [TokState.run]
  | cons c ds ih =>
      have hc := h c List.mem_cons_self
      simp only [blanks, List.mem_cons, List.not_mem_nil, or_false, not_or] at hc
      have hstep : s.step c = s.write c := by simp [TokState.step, hq, hesc, hc]
      show (s.step c).run ds = _
      rw [hstep, @ih (s.write c) hq hesc fun x hx => h x (List.mem_cons_of_mem _ hx)]
      simp [TokState.write]

lemma PlainWord.exists_runes {w : Bytes} (h : PlainWord w) :
    ∃ ds, w = encodeRunes ds ∧ ds ≠ [] ∧ ∀ c ∈ ds, c ∉ '=' :: '"' :: blanks := by
  obtain ⟨ds, hw, hds⟩ := h.plainText.exists_runes
  refine ⟨ds, hw, fun hnil => h.1 (by simp [hw, hnil]), fun c hc hmem => ?_⟩
  have hsep : ∀ b : UInt8, 0x20 < b ∧ b < 0x7F ∧ b ∉ bs "=\"\\" → b ∉ bs " \n\t=\"" :=
    forall_uint8 (by decide +kernel)
  refine hsep _ (h.2 _ (hds c hc).1) ?_
  simp only [blanks, List.mem_cons, List.not_mem_nil, or_false] at hmem
  rcases hmem with rfl | rfl | rfl | rfl | rfl <;> decide

lemma tokenizeRunes_plain {ds : List Char} (hne : ds ≠ [])
    (h : ∀ c ∈ ds, c ∉ '=' :: '"' :: blanks) :
    ClosedRunes ds ∧ tokenizeRunes ds = [ds] := by
  simp [ClosedRunes, tokenizeRunes, @run_plain {} rfl rfl ds h, TokState.flush, hne]

lemma tokenizeRunes_plain_eq {cs : List Char} (hne : cs ≠ [])
    (h : ∀ c ∈ cs, c ∉ '=' :: '"' :: blanks)
    (ds : List Char) : tokenizeRunes (cs ++ '=' :: ds) = cs :: ['='] :: tokenizeRunes ds := by
  have hfront : (TokState.run {} cs).step '=' = TokState.after [cs, ['=']] {} := by
    rw [@run_plain {} rfl rfl cs h]
    simp [TokState.step, TokState.flush, TokState.after, hne]
  have hrun : TokState.run {} (cs ++ '=' :: ds) =
      TokState.after [cs, ['=']] (TokState.run {} ds) := by
    rw [TokState.run_append]
    show ((TokState.run {} cs).step '=').run ds = _
    rw [hfront, TokState.run_after]
  rw [tokenizeRunes, hrun, TokState.flush_after]
  rfl

/-- **A plain word is one token.** -/
lemma tokenize_plain {w : Bytes} (h : PlainWord w) : Closed w ∧ tokenize w = [w] := by
  obtain ⟨ds, rfl, hne, hds⟩ := h.exists_runes
  obtain ⟨hclosed, htokens⟩ := tokenizeRunes_plain hne hds
  simpa [Closed, tokenize, htokens] using hclosed

/-- `key=value` is three tokens. -/
lemma tokenize_assign {k v : Bytes} (hk : PlainWord k) (hv : PlainWord v) :
    Closed (k ++ byte '=' :: v) ∧ tokenize (k ++ byte '=' :: v) = [k, bs "=", v] := by
  obtain ⟨cs, rfl, hcs, hplain⟩ := hk.exists_runes
  obtain ⟨ds, rfl, hds, hplain'⟩ := hv.exists_runes
  have hrunes : runes (encodeRunes cs ++ byte '=' :: encodeRunes ds) = cs ++ '=' :: ds := by
    rw [runes_encodeRunes_append]
    exact congrArg _ (runes_encodeRunes ('=' :: ds))
  have hclosed : ClosedRunes (cs ++ '=' :: ds) := by
    unfold ClosedRunes
    rw [TokState.run_append, @run_plain {} rfl rfl cs hplain]
    show (TokState.run (TokState.step { current := cs } '=') ds).inQuote = false
    rw [run_plain (by simp [TokState.step, TokState.flush, hcs])
      (by simp [TokState.step, TokState.flush, hcs]) hplain']
    simp [TokState.step, TokState.flush, hcs]
  have heq : encodeRunes ['='] = bs "=" := by decide
  rw [Closed, tokenize, hrunes, tokenizeRunes_plain_eq hcs hplain,
    (tokenizeRunes_plain hds hplain').2, ← heq]
  exact ⟨hclosed, rfl⟩

/-- **Closed words joined with blanks are tokenized one by one.** -/
theorem tokenize_words {ws : List Bytes} (h : ∀ w ∈ ws, Closed w) :
    Closed (joinSpace ws) ∧ tokenize (joinSpace ws) = ws.flatMap tokenize := by
  induction ws with
  | nil => exact ⟨rfl, rfl⟩
  | cons w ws ih =>
      have hw := h w List.mem_cons_self
      cases ws with
      | nil => simpa [joinSpace] using hw
      | cons u ws =>
          obtain ⟨hclosed, htokens⟩ := ih fun x hx => h x (List.mem_cons_of_mem _ hx)
          rw [joinSpace]
          refine ⟨(closed_append hw _).mpr hclosed, ?_⟩
          rw [tokenize_append hw, htokens]
          rfl

/-- A token of a closed line. -/
def IsToken (t : List Char) : Prop := TokState.IsWord t ∨ t = ['=']

lemma isToken_of_mem {cs t : List Char} (h : ClosedRunes cs) (ht : t ∈ tokenizeRunes cs) :
    IsToken t :=
  ((TokState.inv_run cs).flush h).words t ht

lemma IsToken.tokenizeRunes {t : List Char} (h : IsToken t) :
    ClosedRunes t ∧ FlameDB.tokenizeRunes t = [t] := by
  unfold ClosedRunes FlameDB.tokenizeRunes
  rcases h with ⟨hne, hrun⟩ | rfl
  · rw [hrun]
    simp [TokState.flush, hne]
  · exact ⟨rfl, rfl⟩

/-- Tokens joined with blanks come back. -/
lemma tokenize_tokens {ws : List Bytes} (h : ∀ w ∈ ws, Closed w ∧ tokenize w = [w]) :
    Closed (joinSpace ws) ∧ tokenize (joinSpace ws) = ws := by
  obtain ⟨hclosed, htokens⟩ := tokenize_words fun w hw => (h w hw).1
  refine ⟨hclosed, htokens.trans ?_⟩
  calc ws.flatMap tokenize = ws.flatMap fun w => [w] := List.flatMap_congr fun w hw => (h w hw).2
    _ = ws := List.flatMap_singleton' ws

/-! ## The last token -/

/-- Text with a separator in it has a quote in it. -/
def Unsplit (t : List Char) : Prop := '"' ∈ t ∨ ∀ c ∈ t, c ∉ '=' :: blanks

/-- Separators get into a token only behind a quote; the equals sign is a token of its own. -/
structure TokState.UnsplitTokens (s : TokState) : Prop where
  current : Unsplit s.current
  tokens : ∀ t ∈ s.tokens, Unsplit t ∨ t = ['=']

lemma TokState.UnsplitTokens.flush {s : TokState} (h : s.UnsplitTokens) :
    s.flush.UnsplitTokens := by
  unfold TokState.flush
  split_ifs
  · exact h
  · refine ⟨.inr (by simp), fun t ht => ?_⟩
    rcases List.mem_append.mp ht with ht | ht
    · exact h.tokens t ht
    · rw [List.mem_singleton.mp ht]
      exact .inl h.current

/-- A separator gets into a token only inside quotes. -/
lemma TokState.UnsplitTokens.step {s : TokState} (hinv : s.Inv) (h : s.UnsplitTokens) (ch : Char) :
    (s.step ch).UnsplitTokens := by
  have hquoted : '"' ∈ s.current → '"' ∈ s.current ++ [ch] := fun hmem =>
    List.mem_append_left _ hmem
  unfold TokState.step
  split_ifs with h1 h2 h3 h4 h5
  · exact ⟨.inl (hquoted (hinv.quote (hinv.escaped h1))), h.tokens⟩
  · exact ⟨.inl (hquoted (hinv.quote h2.1)), h.tokens⟩
  · exact ⟨.inl (by simp [TokState.write, h3]), h.tokens⟩
  · exact h.flush
  · refine ⟨h.flush.current, fun t ht => ?_⟩
    rcases List.mem_append.mp ht with ht | ht
    · exact h.flush.tokens t ht
    · exact .inr (List.mem_singleton.mp ht)
  · refine ⟨?_, h.tokens⟩
    by_cases hq : s.inQuote = true
    · exact .inl (hquoted (hinv.quote hq))
    · rcases h.current with hmem | hsep
      · exact .inl (hquoted hmem)
      · have hch : ch ∉ '=' :: blanks := by
          simp only [blanks, List.mem_cons, List.not_mem_nil, or_false, not_or]
          tauto
        refine .inr fun c hc => ?_
        rcases List.mem_append.mp hc with hc | hc
        · exact hsep c hc
        · rw [List.mem_singleton.mp hc]
          exact hch

lemma TokState.unsplitTokens_run (cs : List Char) : (TokState.run {} cs).UnsplitTokens := by
  induction cs using List.reverseRecOn with
  | nil => exact ⟨.inr (by simp [TokState.run]), by simp [TokState.run]⟩
  | append_singleton cs ch ih =>
      rw [TokState.run_append]
      exact ih.step (TokState.inv_run cs) ch

/-- An ASCII rune whose byte stands in an encoding is one of its runes. -/
lemma mem_of_byte_mem_encodeRunes {cs : List Char} {c : Char} (hc : c.toNat < 128)
    (h : byte c ∈ encodeRunes cs) : c ∈ cs := by
  have hbyte : ∀ {d : Char}, d.toNat < 128 → (byte d).toNat = d.toNat := by
    intro d hd
    simp [byte]
    omega
  have hlt : byte c < 0x80 := UInt8.lt_iff_toNat_lt.mpr (by rw [hbyte hc]; exact hc)
  obtain ⟨d, hd, hdlt, hcd⟩ := mem_encodeRunes_ascii h hlt
  have hnat : c.toNat = d.toNat := by
    rw [← hbyte hc, ← hbyte hdlt]
    exact congrArg UInt8.toNat hcd
  rwa [Char.toNat_inj.mp hnat]

/-- **A token without a quote holds no separator**, unless it is the equals sign. -/
lemma separators_of_mem_tokenize {line t : Bytes} (ht : t ∈ tokenize line) (hquote : byte '"' ∉ t) :
    t = [byte '='] ∨ byte '=' ∉ t ∧ byte ' ' ∉ t := by
  obtain ⟨ds, hds, rfl⟩ := List.mem_map.mp ht
  have hnoQuote : '"' ∉ ds := by
    intro hmem
    refine hquote (List.mem_flatMap.mpr ⟨'"', hmem, ?_⟩)
    decide
  rcases (TokState.unsplitTokens_run (runes line)).flush.tokens ds hds with (h | h) | rfl
  · exact absurd h hnoQuote
  · refine .inr ⟨fun hmem => ?_, fun hmem => ?_⟩
    · exact h '=' (mem_of_byte_mem_encodeRunes (by decide) hmem) (by decide)
    · exact h ' ' (mem_of_byte_mem_encodeRunes (by decide) hmem) (by decide)
  · exact .inl (by decide)

/-- Every token but the last is a token of its own, and so is the last unless a quote is open at
its end. -/
lemma tokenizeRunes_front {cs t : List Char} {ts : List (List Char)}
    (h : tokenizeRunes cs = ts ++ [t]) : (∀ w ∈ ts, IsToken w) ∧ tokenizeRunes t = [t] := by
  by_cases hclosed : ClosedRunes cs
  · have hall : ∀ w ∈ ts ++ [t], IsToken w := fun w hw => isToken_of_mem hclosed (h ▸ hw)
    exact ⟨fun w hw => hall w (List.mem_append_left _ hw), (hall t (by simp)).tokenizeRunes.2⟩
  · have hinv := TokState.inv_run cs
    have hopen : (TokState.run {} cs).inQuote = true := by simpa [ClosedRunes] using hclosed
    have hne : (TokState.run {} cs).current ≠ [] := List.ne_nil_of_mem (hinv.quote hopen)
    rw [tokenizeRunes, TokState.flush, if_neg hne] at h
    obtain ⟨rfl, hlast⟩ := List.append_inj' h rfl
    obtain rfl : (TokState.run {} cs).current = t := by simpa using hlast
    refine ⟨hinv.words, ?_⟩
    rw [tokenizeRunes, hinv.current, TokState.flush, if_neg hne]
    rfl

lemma tokenize_front {line t : Bytes} {ts : List Bytes} (h : tokenize line = ts ++ [t]) :
    (∀ w ∈ ts, Closed w ∧ tokenize w = [w]) ∧ tokenize t = [t] := by
  obtain ⟨us, last, hruns, rfl, hlast⟩ := List.map_eq_append_iff.mp h
  obtain ⟨u, rfl, rfl⟩ : ∃ u, last = [u] ∧ encodeRunes u = t := by
    obtain ⟨u, _, rfl, hu, hnil⟩ := List.map_eq_cons_iff.mp hlast
    exact ⟨u, by simpa using hnil, hu⟩
  obtain ⟨hfront, htoken⟩ := tokenizeRunes_front hruns
  refine ⟨fun w hw => ?_, by simp [tokenize, htoken]⟩
  obtain ⟨ds, hds, rfl⟩ := List.mem_map.mp hw
  obtain ⟨hclosed, htokens⟩ := (hfront ds hds).tokenizeRunes
  simpa [Closed, tokenize, htokens] using hclosed

/-- A token of any line is the only token of its text. -/
lemma tokenize_self {line t : Bytes} (h : t ∈ tokenize line) : tokenize t = [t] := by
  rcases List.eq_nil_or_concat (tokenize line) with hnil | ⟨ts, last, hlast⟩
  · simp [hnil] at h
  · rw [List.concat_eq_append] at hlast
    obtain ⟨hfront, htoken⟩ := tokenize_front hlast
    rw [hlast] at h
    rcases List.mem_append.mp h with h | h
    · exact (hfront t h).2
    · rwa [List.mem_singleton.mp h]

/-- **The tokens of a line, joined with blanks, come back**, whether or not the last one is open. -/
lemma tokenize_rejoin {ts : List Bytes} {t : Bytes} (hts : ∀ w ∈ ts, Closed w ∧ tokenize w = [w])
    (ht : tokenize t = [t]) : tokenize (joinSpace (ts ++ [t])) = ts ++ [t] := by
  induction ts with
  | nil => exact ht
  | cons w ws ih =>
      obtain ⟨hclosed, hw⟩ := hts w List.mem_cons_self
      have htail := ih fun x hx => hts x (List.mem_cons_of_mem _ hx)
      have hjoin : joinSpace (w :: ws ++ [t]) = w ++ byte ' ' :: joinSpace (ws ++ [t]) := by
        cases ws <;> rfl
      rw [hjoin, tokenize_append hclosed, htail, hw]
      rfl

end FlameDB
