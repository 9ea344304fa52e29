import FlameDB.Query.Grammar

/-!
# Ranking commands and LEADERBOARD

RANK, SCORE, AROUND and LEADERBOARD_COUNT take the options of LEADERBOARD.  The source gets there by
a detour: it splits the line, takes the subject of the command out, joins what is left with blanks
and parses that as a LEADERBOARD line.

* `Subject` — the tokens between the metric and the options.
* `SameOptions` — a LEADERBOARD line and a ranking line with the same metric and the same options;
  `sameOptions_text` are such lines written out.
* **`ranking_shares_grammar`** — one is accepted exactly if the other is, with the same result.
-/

namespace FlameDB

open Go KV Grammar

/-- No entry of the table looks at the operation id. -/
lemma getArg_corresponds_op (now : Int64) {op : Bytes} {q p : Query} (key : Bytes)
    (h : p = { q with operationID := op }) :
    (getArg now q key).Corresponds (fun q p => p = { q with operationID := op })
      (getArg now p key) := by
  subst h
  have hint : ∀ (name : Bytes) (set set' : ℤ → Query),
      (∀ n, set' n = { set n with operationID := op }) →
      (intArg name set).Corresponds (fun q p => p = { q with operationID := op })
        (intArg name set') := by
    intro name set set' hset v q' hq'
    cases hn : parseInt v with
    | none => simp [hn] at hq'
    | some n =>
        obtain rfl : set n.toInt = q' := by simpa [hn] using hq'
        exact ⟨set' n.toInt, by simp [hn], hset _⟩
  refine ite_corresponds rfl <| ite_corresponds ?_ <|
    ite_corresponds ⟨rfl, rfl, rfl, rfl, fun _ => rfl⟩ <|
    ite_corresponds (timeArg_corresponds_same fun _ => rfl) <| ite_corresponds trivial <|
    ite_corresponds rfl <| ite_corresponds rfl <| ite_corresponds rfl <|
    ite_corresponds (timeArg_corresponds_same fun _ => rfl) <|
    ite_corresponds (hint _ _ _ fun _ => rfl) <| ite_corresponds (hint _ _ _ fun _ => rfl) <|
    ite_corresponds ?_ <| ite_corresponds (ite_corresponds trivial ?_) <|
    ite_corresponds (ite_corresponds trivial ?_) trivial
  · -- GROUP BY
    intro v q' hq'
    obtain ⟨dur, hdur, hq'⟩ := bind_eq_ok_iff.mp hq'
    obtain rfl : _ = q' := by simpa [pure, Except.pure] using hq'
    exact ⟨_, bind_eq_ok_iff.mpr ⟨dur, hdur, rfl⟩, rfl⟩
  · -- ORDER
    intro v q' hq'
    obtain rfl : _ = q' := by simpa using hq'
    exact ⟨_, rfl, rfl⟩
  · -- ENTITY
    intro v q' hq'
    obtain rfl : _ = q' := by simpa using hq'
    exact ⟨_, rfl, rfl⟩
  · -- BOARD
    intro v q' hq'
    simp only at hq' ⊢
    split_ifs at hq' ⊢ with hboard
    obtain rfl : _ = q' := by simpa using hq'
    exact ⟨_, rfl, rfl⟩

/-- Another operation id gives the same query with that id. -/
lemma parseLeaderboard_op {now : Int64} {op op' lb lb' : Bytes} {args : List Bytes} {q : Query}
    (h : parseLeaderboard now (Command.leaderboard.start op lb) args = .ok q) :
    parseLeaderboard now (Command.leaderboard.start op' lb') args =
      .ok { q with operationID := op' } := by
  cases args with
  | nil => simp [parseLeaderboard] at h
  | cons token args =>
      simp only [parseLeaderboard] at h ⊢
      split_ifs at h ⊢
      obtain ⟨p, hp, rfl⟩ := readArgs_simulation
        (fun q p key => @getArg_corresponds_op now op' q p key) h rfl
      exact hp

lemma Subject.rankingArgs {type : QueryType} {head : List Bytes} {entity : Bytes} {radius : ℤ}
    (h : Subject type head entity radius) (cmd : Bytes) (tail : List Bytes) :
    rankingArgs cmd type (head ++ tail) = .ok (entity, radius, tail) := by
  cases h with
  | rank he => simp [FlameDB.rankingArgs, he]
  | score he => simp [FlameDB.rankingArgs, he]
  | around he hr hn => simp [FlameDB.rankingArgs, he, hr, not_lt.mpr hn.1, not_lt.mpr hn.2]
  | count => rfl

instance (tokens : List Bytes) : Decidable (Quoted tokens) :=
  inferInstanceAs (Decidable (∀ t ∈ tokens, byte '"' ∈ t → unquote t ≠ none))

/-- A LEADERBOARD line, and a ranking line with the same metric and the same options behind its
subject, whose own tokens are well formed. -/
structure SameOptions (line line' : Bytes) (type : QueryType) (entity : Bytes)
    (radius : ℤ) : Prop where
  framing : Clean line' ↔ Clean line
  tokens : ∃ lb cmd metric head tail,
    toUpper lb = bs "LEADERBOARD" ∧ tokenize (cutOperationID line).2 = lb :: metric :: tail ∧
      rankingType cmd = some type ∧ tokenize (cutOperationID line').2 = cmd :: metric ::
        (head ++ tail) ∧
      Subject type head entity radius ∧ Quoted head

/-! ## One grammar

A ranking line is a LEADERBOARD line with its subject put in. -/

lemma closed_of_noQuote {w : Bytes} (h : byte '"' ∉ w) : Closed w := by
  by_contra hopen
  have hinv := TokState.inv_run (runes w)
  have hquote := hinv.quote (by simpa [Closed, ClosedRunes] using hopen)
  have htoken : encodeRunes (TokState.run {} (runes w)).current ∈ tokenize w := by
    refine List.mem_map_of_mem ?_
    rw [tokenizeRunes, TokState.flush, if_neg (List.ne_nil_of_mem hquote)]
    simp
  have hbyte : byte '"' ∈ encodeRunes (TokState.run {} (runes w)).current :=
    List.mem_flatMap.mpr ⟨'"', hquote, by decide⟩
  exact h (mem_of_mem_tokenize htoken hbyte (by decide))

/-- Quotes have no other case. -/
lemma quote_mem_toUpper {s : Bytes} (h : byte '"' ∈ s) : byte '"' ∈ toUpper s := by
  induction s using toUpper.induct with
  | case1 => exact h
  | case2 rest ih =>
      have hrest : byte '"' ∈ rest := by simpa [byte] using h
      exact List.mem_cons_of_mem _ (ih hrest)
  | case3 rest ih =>
      have hrest : byte '"' ∈ rest := by simpa [byte] using h
      exact List.mem_cons_of_mem _ (ih hrest)
  | case4 b rest h1 h2 ih =>
      rw [toUpper.eq_4 b rest h1 h2]
      rcases List.mem_cons.mp h with rfl | hrest
      · exact List.mem_cons.mpr (Or.inl (by decide))
      · exact List.mem_cons_of_mem _ (ih hrest)

lemma rankingType_noQuote {cmd : Bytes} {type : QueryType} (h : rankingType cmd = some type) :
    byte '"' ∉ toUpper cmd := by
  have hword : toUpper cmd ∈ [bs "RANK", bs "SCORE", bs "AROUND", bs "LEADERBOARD_COUNT"] := by
    simp only [rankingType, List.lookup] at h
    repeat' split at h
    all_goals simp_all
  have hwords : ∀ w ∈ [bs "RANK", bs "SCORE", bs "AROUND", bs "LEADERBOARD_COUNT"],
    byte '"' ∉ w := by
    decide +kernel
  exact hwords _ hword

/-- A command word stands without quotes. -/
lemma quoted_cons {cmd : Bytes} {args : List Bytes} (hcmd : byte '"' ∉ toUpper cmd) :
    Quoted (cmd :: args) ↔ Quoted args := by
  refine ⟨fun h t ht => h t (List.mem_cons_of_mem _ ht), fun h t ht => ?_⟩
  rcases List.mem_cons.mp ht with rfl | ht
  · exact fun hmem => absurd (quote_mem_toUpper hmem) hcmd
  · exact h t ht

/-- The tokens of a clean line are clean. -/
lemma clean_of_prepare {line op cmd : Bytes} {args : List Bytes}
    (h : prepare line = .ok (op, cmd, args)) : ∀ t ∈ args, Clean t := by
  obtain ⟨hclean, -, htok, -⟩ := prepare_eq_ok_iff.mp h
  intro t ht c hc hframing
  have hascii : ∀ c ∈ framingChars, c < 0x80 := by decide +kernel
  have hin : c ∈ (cutOperationID line).2 :=
    mem_of_mem_tokenize (t := t) (by rw [htok]; exact List.mem_cons_of_mem _ ht) hc
      (hascii c hframing)
  have hline : c ∈ line := by
    rcases cutOperationID_spec line with hcut | ⟨-, hcut⟩
    · rwa [hcut] at hin
    · rw [hcut]
      simp [hin]
  exact hclean c hline hframing

/-- What a line with given tokens is prepared to. -/
lemma prepare_of_tokens {line cmd : Bytes} {args : List Bytes} (hclean : Clean line)
    (htok : tokenize (cutOperationID line).2 = cmd :: args) (hq : Quoted (cmd :: args)) :
    prepare line = .ok ((cutOperationID line).1, cmd, args) :=
  prepare_eq_ok_iff.mpr ⟨hclean, hq, htok, rfl⟩

section Shared

variable {line line' : Bytes} {type : QueryType} {entity : Bytes} {radius : ℤ} {now : Int64}

/-- The whole way from a LEADERBOARD line to its query. -/
lemma parse_leaderboard {lb metric : Bytes} {tail : List Bytes}
    (hlb : toUpper lb = bs "LEADERBOARD")
    (htok : tokenize (cutOperationID line).2 = lb :: metric :: tail) {q : Query} :
    parse now line = .ok q ↔ Clean line ∧ Quoted (lb :: metric :: tail) ∧
      parseLeaderboard now (Command.leaderboard.start (cutOperationID line).1 lb)
        (metric :: tail) = .ok q ∧
      validateQuery q = .ok () := by
  have hcommand : commandOf lb = some .leaderboard := by
    rw [commandOf, hlb]
    decide
  have hplain : rankingType lb = none := by
    rw [rankingType, hlb]
    decide
  rw [parse_eq_ok_iff, parseUnchecked_eq_ok_iff]
  constructor
  · rintro ⟨⟨op, cmd, args, hp, hun⟩, hval⟩
    obtain ⟨hclean, hq, htok', rfl⟩ := prepare_eq_ok_iff.mp hp
    obtain ⟨rfl, rfl⟩ := List.cons.inj (htok.symm.trans htok')
    simp only [parseTokens, hplain, parseCommand, hcommand] at hun
    exact ⟨hclean, hq, hun, hval⟩
  · rintro ⟨hclean, hq, hparse, hval⟩
    refine ⟨⟨_, _, _, prepare_of_tokens hclean htok hq, ?_⟩, hval⟩
    simp only [parseTokens, hplain, parseCommand, hcommand]
    exact hparse

/-- The same for the ranking commands. -/
lemma parse_ranking {cmd metric : Bytes} {head tail : List Bytes}
    (hcmd : rankingType cmd = some type)
    (htok : tokenize (cutOperationID line').2 = cmd :: metric :: (head ++ tail))
    (hsubject : Subject type head entity radius) {q : Query} :
    parse now line' = .ok q ↔ Clean line' ∧ Quoted (cmd :: metric :: (head ++ tail)) ∧
      ∃ q₀, parsePlain now (rankingLine metric tail) = .ok q₀ ∧
        q = { q₀ with type := type, entityID := entity, radius := radius } ∧
        validateQuery q = .ok () := by
  rw [parse_eq_ok_iff, parseUnchecked_eq_ok_iff]
  constructor
  · rintro ⟨⟨op, cmd', args, hp, hun⟩, hval⟩
    obtain ⟨hclean, hq, htok', rfl⟩ := prepare_eq_ok_iff.mp hp
    obtain ⟨rfl, rfl⟩ := List.cons.inj (htok.symm.trans htok')
    simp only [parseTokens, hcmd, parseRanking, hsubject.rankingArgs] at hun
    obtain ⟨⟨e, r, t⟩, hargs, hun⟩ := bind_eq_ok_iff.mp hun
    cases hargs
    obtain ⟨q₀, hq₀, hret⟩ := bind_eq_ok_iff.mp hun
    exact ⟨hclean, hq, q₀, hq₀, (Except.ok.inj hret).symm, hval⟩
  · rintro ⟨hclean, hq, q₀, hq₀, rfl, hval⟩
    refine ⟨⟨_, _, _, prepare_of_tokens hclean htok hq, ?_⟩, hval⟩
    simp only [parseTokens, hcmd, parseRanking, hsubject.rankingArgs]
    exact bind_eq_ok_iff.mpr ⟨_, rfl, bind_eq_ok_iff.mpr ⟨q₀, hq₀, rfl⟩⟩

/-- Only the checks of other commands look at what a ranking command changes. -/
lemma validateQuery_ranking {q : Query} (hty : q.type = .leaderboard)
    (hrank : type = .rank ∨ type = .score ∨ type = .around ∨ type = .leaderboardCount)
      (op : Bytes) :
    validateQuery { q with type := type, entityID := entity, radius := radius, operationID := op } =
      validateQuery q := by
  rcases hrank with rfl | rfl | rfl | rfl <;> simp [validateQuery, badMetric, hty]

/-- The metric of an accepted line is its second token, and no quote is open behind it. -/
lemma closed_metric {lb op metric : Bytes} {tail : List Bytes} {q : Query}
    (h : parseLeaderboard now (Command.leaderboard.start op lb) (metric :: tail) = .ok q)
    (hval : validateQuery q = .ok ()) : q.type = .leaderboard ∧ Closed metric := by
  simp only [parseLeaderboard] at h
  split_ifs at h
  have hhead := readArgs_head (getArg_head now) h
  simp only [Query.head, Prod.mk.injEq] at hhead
  obtain ⟨htype, hmetric, -⟩ := hhead
  refine ⟨htype, closed_of_noQuote fun hquote => ?_⟩
  simp only [validateQuery, failIf_bind_eq_ok_iff, Option.not_isSome_iff_eq_none] at hval
  have hbad := hval.2.2.2.2.2.1
  have hne : q.type ≠ .metrics := by
    rw [htype]
    exact QueryType.noConfusion
  rw [badMetric, if_neg hne, List.find?_eq_none] at hbad
  refine hbad q.metric List.mem_cons_self ?_
  have hcontains : containsAny q.metric (bs ",=\" \t\r\n") = true :=
    List.any_eq_true.mpr ⟨byte '"', by rw [hmetric]; exact hquote, by decide⟩
  simp [invalidMetric, hcontains]

/-- The rejoined line is read as the line it was made from. -/
lemma parsePlain_rankingLine {op cmd metric : Bytes} {args tail : List Bytes}
    (hp : prepare line = .ok (op, cmd, metric :: args)) (htail : tail <:+ args)
    (hclosed : tail = [] → Closed metric) {q : Query} :
    parsePlain now (rankingLine metric tail) = .ok q ↔
      parseLeaderboard now (Command.leaderboard.start [] (bs "LEADERBOARD"))
        (metric :: tail) = .ok q ∧
        validateQuery q = .ok () := by
  obtain ⟨hcut, htokens⟩ := rankingLine_tokens hp htail hclosed
  obtain ⟨hcleanline, hquoted, htok, -⟩ := prepare_eq_ok_iff.mp hp
  have hcommand : commandOf (bs "LEADERBOARD") = some .leaderboard := by decide
  have hprepare : prepare (rankingLine metric tail) = .ok ([], bs "LEADERBOARD",
    metric :: tail) := by
    have htokensclean : ∀ t ∈ metric :: tail, Clean t := by
      intro t ht
      refine clean_of_prepare hp t ?_
      rcases List.mem_cons.mp ht with rfl | ht
      · exact List.mem_cons_self
      · exact List.mem_cons_of_mem _ (htail.subset ht)
    refine prepare_eq_ok_iff.mpr ⟨?_, ?_, by rw [hcut]; exact htokens, by rw [hcut]⟩
    · have hjoined : Clean (joinSpace tail) := by
        intro c hc
        rcases mem_joinSpace hc with rfl | ⟨w, hw, hcw⟩
        · decide
        · exact htokensclean w (List.mem_cons_of_mem _ hw) c hcw
      exact ((Clean.append (by decide +kernel) (htokensclean metric List.mem_cons_self)).append
        (by decide +kernel)).append hjoined
    · rw [quoted_cons (by decide +kernel)]
      intro t ht
      refine hquoted t (List.mem_cons_of_mem _ ?_)
      rcases List.mem_cons.mp ht with rfl | ht
      · exact List.mem_cons_self
      · exact List.mem_cons_of_mem _ (htail.subset ht)
  rw [parsePlain_eq_ok_iff]
  constructor
  · rintro ⟨op', cmd', args', hp', hparse, hval⟩
    obtain ⟨rfl, rfl, rfl⟩ := prepare_rankingLine hp htail hp'
    simp only [parseCommand, hcommand] at hparse
    exact ⟨hparse, hval⟩
  · rintro ⟨hparse, hval⟩
    refine ⟨_, _, _, hprepare, ?_, hval⟩
    simp only [parseCommand, hcommand]
    exact hparse

end Shared

/-- **Ranking commands share the grammar of LEADERBOARD.**  With the same options behind it a
ranking line is accepted exactly if the LEADERBOARD line is, and the query is the same but for the
subject; the operation id is not kept. -/
theorem ranking_shares_grammar {line line' : Bytes} {type : QueryType} {entity : Bytes} {radius : ℤ}
    (h : SameOptions line line' type entity radius) (now : Int64) :
    (∀ q, parse now line = .ok q → parse now line' =
      .ok { q with type := type, entityID := entity, radius := radius, operationID := [] }) ∧
      ∀ q', parse now line' = .ok q' → ∃ q, parse now line = .ok q := by
  obtain ⟨lb, cmd, metric, head, tail, hlb, htok, hcmd, htok', hsubject, hhead⟩ := h.tokens
  have hrank := rankingType_type hcmd
  constructor
  · intro q hq
    obtain ⟨hclean, hquoted, hparse, hval⟩ := (parse_leaderboard hlb htok).mp hq
    obtain ⟨htype, hclosed⟩ := closed_metric hparse hval
    have hplain : parsePlain now (rankingLine metric tail) = .ok { q with operationID := [] } :=
      (parsePlain_rankingLine (prepare_of_tokens hclean htok hquoted) (List.suffix_refl tail)
        fun _ => hclosed).mpr ⟨parseLeaderboard_op hparse, hval⟩
    refine (parse_ranking hcmd htok' hsubject).mpr
      ⟨h.framing.mpr hclean, ?_, _, hplain, rfl, ?_⟩
    · rw [quoted_cons (by rw [hlb]; decide +kernel)] at hquoted
      rw [quoted_cons (rankingType_noQuote hcmd)]
      intro t ht
      simp only [List.mem_cons, List.mem_append] at ht
      rcases ht with rfl | ht | ht
      · exact hquoted t List.mem_cons_self
      · exact hhead t ht
      · exact hquoted t (List.mem_cons_of_mem _ ht)
    · exact (validateQuery_ranking htype hrank []).trans hval
  · intro q' hq'
    obtain ⟨hclean, hquoted, q₀, hplain, -, -⟩ := (parse_ranking hcmd htok' hsubject).mp hq'
    have hclosed : tail = [] → Closed metric := by
      rintro rfl
      obtain ⟨_, _, _, hp, -⟩ := parsePlain_eq_ok_iff.mp hplain
      exact closed_of_prepare_rankingLine hp
    obtain ⟨hparse, hval⟩ := (parsePlain_rankingLine (prepare_of_tokens hclean htok' hquoted)
      (List.suffix_append head tail) hclosed).mp hplain
    refine ⟨_, (parse_leaderboard hlb htok).mpr
      ⟨h.framing.mp hclean, ?_, parseLeaderboard_op hparse, hval⟩⟩
    rw [quoted_cons (rankingType_noQuote hcmd)] at hquoted
    rw [quoted_cons (by rw [hlb]; decide +kernel)]
    intro t ht
    refine hquoted t ?_
    rcases List.mem_cons.mp ht with rfl | ht
    · exact List.mem_cons_self
    · exact List.mem_cons_of_mem _ (List.mem_append_right _ ht)

/-! ## Lines written out -/

lemma clean_append_iff {s t : Bytes} : Clean (s ++ t) ↔ Clean s ∧ Clean t := List.forall_mem_append

lemma clean_cons_blank {s : Bytes} : Clean (byte ' ' :: s) ↔ Clean s :=
  ⟨fun h c hc => h c (List.mem_cons_of_mem _ hc), fun h => List.forall_mem_cons.mpr ⟨by decide, h⟩⟩

lemma clean_joinSpace {ws : List Bytes} : Clean (joinSpace ws) ↔ ∀ w ∈ ws, Clean w := by
  induction ws with
  | nil => simp [joinSpace, Clean]
  | cons w ws ih =>
      cases ws with
      | nil => simp [joinSpace]
      | cons w' ws =>
          rw [joinSpace, clean_append_iff, clean_cons_blank, ih]
          exact List.forall_mem_cons.symm

/-- **Lines written out** with one tail: the words are tokens of their own, the tail is any text. -/
theorem sameOptions_text {type : QueryType} {cmd metric entity : Bytes}
    {head : List Bytes} {radius : ℤ}
    (hcmd : rankingType cmd = some type) (hword : PlainWord cmd)
    (hwords : ∀ w ∈ metric :: head, Closed w ∧ tokenize w = [w]) (hclean : ∀ w ∈ head, Clean w)
    (hquoted : Quoted head) (hsubject : Subject type head entity radius) (t : Bytes) :
    SameOptions (joinSpace [bs "LEADERBOARD", metric] ++ byte ' ' :: t)
      (joinSpace (cmd :: metric :: head) ++ byte ' ' :: t) type entity radius := by
  have hcmdclean : Clean cmd := hword.plainText.clean
  have hlbclean : Clean (bs "LEADERBOARD") := by decide +kernel
  obtain ⟨op, rest, hrest, hcut⟩ := cutOperationID_behind t
  obtain ⟨tail, htail⟩ : ∃ tail, ∀ ws : List Bytes, (∀ w ∈ ws, Closed w ∧ tokenize w = [w]) →
      tokenize (joinSpace ws ++ rest) = ws ++ tail := by
    rcases hrest with rfl | ⟨s, rfl⟩
    · exact ⟨[], fun ws hws => by simpa using (tokenize_tokens hws).2⟩
    · refine ⟨tokenize s, fun ws hws => ?_⟩
      obtain ⟨hclosed, htokens⟩ := tokenize_tokens hws
      rw [tokenize_append hclosed, htokens]
  constructor
  · rw [clean_append_iff, clean_append_iff, clean_joinSpace, clean_joinSpace]
    refine and_congr_left' ?_
    simp only [List.forall_mem_cons, hcmdclean, hlbclean, true_and]
    refine and_congr_right fun _ => ⟨fun _ => by simp, fun _ => hclean⟩
  · refine ⟨bs "LEADERBOARD", cmd, metric, head,
      tail, by decide +kernel, ?_, hcmd, ?_, hsubject, hquoted⟩
    · rw [hcut, htail]
      · rfl
      · refine List.forall_mem_cons.mpr ⟨leaderboard_word, List.forall_mem_cons.mpr ⟨?_, by simp⟩⟩
        exact hwords metric List.mem_cons_self
    · rw [hcut, htail _ (List.forall_mem_cons.mpr ⟨tokenize_plain hword, hwords⟩)]
      rfl

/-- The options of the example below. -/
def sampleOptions : Bytes :=
  bs "BOARD daily WHERE region = \"eu west\" LIMIT 3 __local __op=00112233445566778899aabbccddeeff"

/-- A quoted entity and a radius in front of options with a separate `=` and an operation id. -/
theorem ranking_shares_grammar_around :
    parse 0 (joinSpace [bs "AROUND", bs "hits", bs "\"al ice\"", bs "4"] ++
      byte ' ' :: sampleOptions) =
      .ok { type := .around, metric := bs "hits", entityID := bs "al ice", radius := 4,
            where_ := (∅ : Tags).set (bs "region") (bs "eu west"), board := bs "daily", limit := 3,
            forceLocal := true } := by
  have hline : parse 0 (joinSpace [bs "LEADERBOARD", bs "hits"] ++ byte ' ' :: sampleOptions) =
      .ok { type := .leaderboard, metric := bs "hits",
            operationID := bs "00112233445566778899aabbccddeeff",
            where_ := (∅ : Tags).set (bs "region") (bs "eu west"), board := bs "daily", limit := 3,
            forceLocal := true } := by decide +kernel
  have hsubject : Subject .around [bs "\"al ice\"", bs "4"] (bs "al ice") 4 :=
    .around (e := bs "\"al ice\"") (n := 4) (by decide +kernel) (by decide +kernel) (by decide)
  have hsame : SameOptions (joinSpace [bs "LEADERBOARD", bs "hits"] ++ byte ' ' :: sampleOptions)
      (joinSpace [bs "AROUND", bs "hits", bs "\"al ice\"", bs "4"] ++ byte ' ' :: sampleOptions)
      .around (bs "al ice") 4 :=
    sameOptions_text (by decide +kernel) (by decide +kernel) (by decide +kernel) (by decide +kernel)
      (by decide +kernel) hsubject sampleOptions
  exact (ranking_shares_grammar hsame 0).1 _ hline

end FlameDB
