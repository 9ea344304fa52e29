import FlameDB.Query.Executor
import FlameDB.Query.Lines

/-!
# The replicated line

A mutation is replicated as text: `replicaLine` takes the line the primary executed and appends what
the primary decided — the timestamp of a WRITE, the time range of a DELETE — with the replica flag
and the operation id.  The replica parses that line again, at its own time.

`Replicable` says when this works: the line leaves no quote open, a SET leaves no token unread
behind its `break`, and a bound of a DELETE that is zero, and therefore not written out, is zero at
the replica's time as well.  Under it the replica reads the very query the primary executed, with
the replica flag set (`Replicable.parse_eq`), and every other line is misread or refused.
-/

namespace FlameDB

open Go KV

/-- The line sent to the replicas: the client's own, with what the primary decided. -/
def replicaLine (line : Bytes) (q : Query) : Bytes :=
  let line := if q.type = .write then line ++ bs " ts=" ++ formatInt q.timestamp else line
  let line :=
    if q.type = .delete then
      let line := if q.from_ ≠ 0 then line ++ bs " FROM " ++ formatRFC3339Nano q.from_ else line
      if q.to_ ≠ 0 then line ++ bs " TO " ++ formatRFC3339Nano q.to_ else line
    else line
  line ++ bs " __replica __op=" ++ q.operationID

/-! ## The appended text

Words in front of the flags carry what a replica could not compute itself: the time of a write and
the bounds of a deletion. -/

/-- A bound of the time range; zero is no bound. -/
def boundWords (name : Bytes) (t : Int64) : List Bytes :=
  if t = 0 then [] else [name, formatRFC3339Nano t]

/-- The appended words before the flags. -/
def replicaWords (q : Query) : List Bytes :=
  (if q.type = .write then [bs "ts" ++ byte '=' :: formatInt q.timestamp] else []) ++
    (if q.type = .delete then boundWords (bs "FROM") q.from_ ++ boundWords (bs "TO") q.to_ else [])

/-- What stands between the line and the operation id. -/
def replicaText (q : Query) : Bytes := joinSpace (replicaWords q ++ [bs "__replica"])

/-- The tokens of that text. -/
def replicaTokens (q : Query) : List Bytes :=
  (if q.type = .write then [bs "ts", bs "=", formatInt q.timestamp] else []) ++
    (if q.type = .delete then boundWords (bs "FROM") q.from_ ++
      boundWords (bs "TO") q.to_ else []) ++
    [bs "__replica"]

lemma replicaLine_eq (line : Bytes) (q : Query) :
    replicaLine line q = line ++ byte ' ' :: replicaText q ++ bs " __op=" ++ q.operationID := by
  have h1 : bs " __replica __op=" = byte ' ' :: bs "__replica" ++ bs " __op=" := by decide
  have h2 : bs " FROM " = byte ' ' :: bs "FROM" ++ [byte ' '] := by decide
  have h3 : bs " TO " = byte ' ' :: bs "TO" ++ [byte ' '] := by decide
  have h4 : bs " ts=" = byte ' ' :: bs "ts" ++ [byte '='] := by decide
  simp only [replicaLine, replicaText, replicaWords, boundWords, h1, h2, h3, h4]
  split_ifs <;> simp_all [joinSpace]

lemma plainWord_formatInt (n : Int64) : PlainWord (formatInt n) := by
  have hdigit : ∀ b : UInt8, isDigit b = true → 0x20 < b ∧ b < 0x7F ∧ b ∉ bs "=\"\\" :=
    forall_uint8 (by decide +kernel)
  unfold formatInt
  split_ifs
  · refine ⟨List.cons_ne_nil _ _, fun b hb => ?_⟩
    rcases List.mem_cons.mp hb with rfl | hb
    · decide
    · exact hdigit b (isDigit_of_mem_formatNat hb)
  · exact ⟨formatNat_ne_nil _, fun b hb => hdigit b (isDigit_of_mem_formatNat hb)⟩

lemma plainWord_formatRFC3339Nano (t : Int64) : PlainWord (formatRFC3339Nano t) := by
  have hbyte : ∀ b : UInt8, isDigit b = true ∨ b ∈ bs "-:.TZ" →
      0x20 < b ∧ b < 0x7F ∧ b ∉ bs "=\"\\" := forall_uint8 (by decide +kernel)
  exact ⟨by simp [formatRFC3339Nano], fun b hb => hbyte b (mem_formatRFC3339Nano hb)⟩

lemma plainWord_of_mem_boundWords {name w : Bytes} {t : Int64} (hname : PlainWord name)
    (h : w ∈ boundWords name t) : PlainWord w := by
  unfold boundWords at h
  split_ifs at h
  · simp at h
  · rcases List.mem_pair.mp h with rfl | rfl
    · exact hname
    · exact plainWord_formatRFC3339Nano t

/-- The bounds are plain words. -/
lemma plainWord_of_mem_bounds {q : Query} {w : Bytes}
    (h : w ∈ boundWords (bs "FROM") q.from_ ++ boundWords (bs "TO") q.to_) : PlainWord w := by
  rcases List.mem_append.mp h with h | h
  · exact plainWord_of_mem_boundWords (by decide +kernel) h
  · exact plainWord_of_mem_boundWords (by decide +kernel) h

lemma closed_plainText_of_mem {q : Query} {w : Bytes}
    (h : w ∈ replicaWords q ++ [bs "__replica"]) : Closed w ∧ PlainText w := by
  have hplain : ∀ {w}, PlainWord w → Closed w ∧ PlainText w := fun hw =>
    ⟨(tokenize_plain hw).1, hw.plainText⟩
  have hts : PlainText (bs "ts" ++ byte '=' :: formatInt q.timestamp) :=
    PlainText.append (by decide +kernel)
      (PlainText.append (s := [byte '=']) (by decide +kernel) (plainWord_formatInt _).plainText)
  simp only [replicaWords, List.mem_append, List.mem_singleton] at h
  rcases h with (h | h) | rfl
  · split_ifs at h
    · obtain rfl := List.mem_singleton.mp h
      exact ⟨(tokenize_assign (by decide +kernel) (plainWord_formatInt _)).1, hts⟩
    · simp at h
  · split_ifs at h
    · exact hplain (plainWord_of_mem_bounds (by simpa using h))
    · simp at h
  · exact hplain (by decide +kernel)

lemma plainText_replicaText (q : Query) : PlainText (replicaText q) :=
  PlainText.joinSpace fun _ hw => (closed_plainText_of_mem hw).2

lemma tokenize_replicaText (q : Query) : tokenize (replicaText q) = replicaTokens q := by
  have hplain : ∀ {ws : List Bytes}, (∀ w ∈ ws, PlainWord w) → ws.flatMap tokenize = ws := by
    intro ws h
    rw [← (tokenize_words fun w hw => (tokenize_plain (h w hw)).1).2]
    exact (tokenize_tokens fun w hw => tokenize_plain (h w hw)).2
  have hts : tokenize (bs "ts" ++ byte '=' :: formatInt q.timestamp) =
      [bs "ts", bs "=", formatInt q.timestamp] :=
    (tokenize_assign (by decide +kernel) (plainWord_formatInt _)).2
  have hflag : tokenize (bs "__replica") = [bs "__replica"] :=
    (tokenize_plain (by decide +kernel)).2
  rw [replicaText, (tokenize_words fun w hw => (closed_plainText_of_mem hw).1).2, replicaWords,
    replicaTokens, List.flatMap_append, List.flatMap_append]
  refine congrArg₂ (· ++ ·) (congrArg₂ (· ++ ·) ?_ ?_) ?_
  · split_ifs
    · simpa using hts
    · rfl
  · split_ifs
    · exact hplain fun w hw => plainWord_of_mem_bounds hw
    · rfl
  · simpa using hflag

lemma getLast?_replicaText (q : Query) : (replicaText q).getLast? = some (byte 'a') := by
  have hlast : (bs "__replica").getLast? = some (byte 'a') := by decide
  unfold replicaText
  by_cases h : replicaWords q = []
  · simpa [h, joinSpace] using hlast
  · rw [joinSpace_concat h, List.getLast?_append, List.getLast?_cons, hlast]
    rfl

lemma cutOperationID_replicaLine (line : Bytes) {q : Query} (hop : IsOperationID q.operationID) :
    cutOperationID (replicaLine line q) = (q.operationID, line ++ byte ' ' :: replicaText q) := by
  rw [replicaLine_eq]
  exact cutOperationID_append _ hop

lemma clean_replicaLine {line : Bytes} (h : Clean line) {q : Query}
    (hop : IsOperationID q.operationID) : Clean (replicaLine line q) := by
  have hhex : ∀ b : UInt8, IsHexDigit b → b ∉ framingChars := forall_uint8 (by decide +kernel)
  rw [replicaLine_eq, List.append_assoc, List.append_assoc]
  refine h.append (Clean.append (s := byte ' ' :: replicaText q) ?_ (Clean.append ?_ ?_))
  · exact Clean.append (s := [byte ' ']) (by decide +kernel) (plainText_replicaText q).clean
  · decide +kernel
  · exact fun b hb => hhex b (hop.2 b hb)

/-- **A closed line is replicated as the same command**, with more arguments. -/
lemma ReadAs.parseUnchecked_replicaLine {now : Int64} {line cmd : Bytes} {q : Query} {c : Command}
    {args : List Bytes} (h : ReadAs now line q c cmd args) (hop₀ : q.operationID = [])
    (hclosed : Closed line) {p : Query} (hop : IsOperationID p.operationID) (now' : Int64) :
    parseUnchecked now' (replicaLine line p) =
      c.parse now' (c.start p.operationID cmd) (args ++ replicaTokens p) := by
  have hcut := h.cutOperationID_eq hop₀
  rw [← tokenize_replicaText]
  exact h.parseUnchecked_append (by rwa [hcut])
    (by rw [hcut]; exact cutOperationID_replicaLine line hop)
    (clean_replicaLine h.clean hop) (plainText_replicaText p).quoted now'

/-- **An open line is refused by the replica.** -/
lemma parse_replicaLine_open {line : Bytes} (hopen : ¬ Closed line) {p : Query}
    (hop : IsOperationID p.operationID) (now : Int64) (q : Query) :
    parse now (replicaLine line p) ≠ .ok q := by
  intro h
  obtain ⟨_, cmd, args, hprep, -⟩ := parseUnchecked_eq_ok_iff.mp (parse_eq_ok_iff.mp h).1
  have hlast : (byte ' ' :: replicaText p).getLast? = some (byte 'a') := by
    rw [List.getLast?_cons, getLast?_replicaText p]
    rfl
  exact prepare_append_open hopen (plainText_replicaText p) hlast (by decide)
    (cutOperationID_replicaLine line hop) _ hprep

/-! ## WRITE -/

lemma assign_withOperationID (q : Query) (op key value : Bytes) :
    ({ q with operationID := op } : Query).assign key value =
      { q.assign key value with operationID := op } := by
  unfold Query.assign
  split_ifs <;> rfl

lemma writeArg_corresponds {op : Bytes} {q p : Query} (key : Bytes)
    (h : p = { q with operationID := op }) :
    (writeArg q key).Corresponds (fun q p => p = { q with operationID := op })
      (writeArg p key) := by
  subst h
  refine ite_corresponds rfl <| ite_corresponds rfl <| ite_corresponds rfl ⟨rfl, fun v q' hq' => ?_⟩
  simp only at hq' ⊢
  split_ifs at hq' ⊢
  · cases hts : parseInt v with
    | none => simp [hts] at hq'
    | some ts =>
        obtain rfl : _ = q' := by simpa [hts] using hq'
        exact ⟨_, rfl, rfl⟩
  · obtain rfl : _ = q' := by simpa using hq'
    exact ⟨_, rfl, assign_withOperationID q op key v⟩

lemma tokenValue_of_plain {w : Bytes} (h : PlainWord w) : tokenValue w = w := by
  unfold tokenValue
  rw [if_neg]
  intro hhead
  exact (h.2 _ (List.mem_of_mem_head? hhead)).2.2 (by decide +kernel)

/-- The appended timestamp and flag, read by WRITE. -/
lemma readArgs_write_replica (q : Query) {ts : Int64} (hts : ¬ ts < 0) :
    readArgs writeArg q [bs "ts", bs "=", formatInt ts, bs "__replica"] =
      .ok { q with timestamp := ts, isReplica := true } := by
  have h1 : (writeArg q (bs "ts")).Reads [bs "=", formatInt ts, bs "__replica"]
      { q with timestamp := ts } [bs "__replica"] := by
    refine .assign ?_
    rw [tokenValue_of_plain (plainWord_formatInt ts), if_pos rfl, parseInt_formatInt hts]
  have h2 : (writeArg { q with timestamp := ts } (bs "__replica")).Reads []
      { q with timestamp := ts, isReplica := true } [] := .flag _ _
  rw [readArgs_of_reads h1, readArgs_of_reads h2]
  rfl

/-- A WRITE is read back with its timestamp. -/
lemma ReadAs.parseUnchecked_write {now : Int64} {line cmd : Bytes} {q : Query} {args : List Bytes}
    (h : ReadAs now line q .write cmd args) (hop₀ : q.operationID = []) (hclosed : Closed line)
    {op : Bytes} (hop : IsOperationID op) {ts : Int64} (hts : ¬ ts < 0) (now' : Int64) :
    parseUnchecked now' (replicaLine line { q with operationID := op, timestamp := ts }) =
      .ok { q with operationID := op, timestamp := ts, isReplica := true } := by
  have htype : q.type = .write := h.type_eq
  have hparsed := h.parsed
  rw [hop₀] at hparsed
  obtain ⟨metric, value, args, v, rfl, hv, hread⟩ := parseValue_eq_ok_iff.mp hparsed
  obtain ⟨p, hp, rfl⟩ := readArgs_simulation (R := fun q p => p = { q with operationID := op })
    (fun _ _ key => writeArg_corresponds key) hread rfl
  have hextra : replicaTokens { q with operationID := op, timestamp := ts } =
      [bs "ts", bs "=", formatInt ts, bs "__replica"] := by simp [replicaTokens, htype]
  rw [h.parseUnchecked_replicaLine hop₀ hclosed (p := { q with operationID := op, timestamp := ts })
    hop, hextra]
  simp only [Command.parse, List.cons_append]
  refine parseValue_eq_ok_iff.mpr ⟨metric, value, _, v, rfl, hv, ?_⟩
  exact (readArgs_append writeArg_goes (notAnd_cons (by decide) _) hp).trans
    (readArgs_write_replica _ hts)

/-! ## SET -/

/-- The tokens behind the `break` of a SET. -/
def setUnread (line : Bytes) : List Bytes :=
  match tokenize line with
  | _ :: _ :: _ :: args =>
      match ArgLoop.loop (argStep setArg) { type := .set } args with
      | .ok (_, left) => left
      | .error _ => []
  | _ => []

lemma setArg_corresponds {R : Query → Query → Prop} {q p : Query} (key : Bytes)
    (hreplica : R { q with isReplica := true } { p with isReplica := true })
    (hlocal : R { q with forceLocal := true } { p with forceLocal := true })
    (hassign : ∀ v, R (q.assign key v) (p.assign key v)) :
    (setArg q key).Corresponds R (setArg p key) :=
  ite_corresponds hreplica <| ite_corresponds hlocal <| assign_ok_corresponds hassign

/-- A SET is read back, but the flag only if no token was left unread. -/
lemma ReadAs.parseUnchecked_set {now : Int64} {line cmd : Bytes} {q : Query} {args : List Bytes}
    (h : ReadAs now line q .set cmd args) (hop₀ : q.operationID = []) (hclosed : Closed line)
    {op : Bytes} (hop : IsOperationID op) (now' : Int64) :
    parseUnchecked now' (replicaLine line { q with operationID := op }) =
      .ok { q with operationID := op, isReplica := setUnread line = [] || q.isReplica } := by
  have htype : q.type = .set := h.type_eq
  have hparsed := h.parsed
  obtain ⟨-, -, htok, -⟩ := prepare_eq_ok_iff.mp h.prepared
  rw [h.cutOperationID_eq hop₀] at htok
  rw [hop₀] at hparsed
  obtain ⟨metric, value, args, v, rfl, hv, hread⟩ := parseValue_eq_ok_iff.mp hparsed
  obtain ⟨left, hloop⟩ := readArgs_eq_ok_iff.mp hread
  have hunread : setUnread line = left := by
    have hany : ∀ q p key, True → (setArg q key).Corresponds (fun _ _ => True) (setArg p key) :=
      fun q p key _ => setArg_corresponds key trivial trivial fun _ => trivial
    obtain ⟨p, hp, -⟩ := loop_argStep_simulation hany hloop (p := { type := .set }) trivial
    simp only at htok
    simp only [setUnread, htok, hp]
  have hsame : ∀ q p key, p = { q with operationID := op } →
      (setArg q key).Corresponds (fun q p => p = { q with operationID := op }) (setArg p key) := by
    rintro q p key rfl
    exact setArg_corresponds key rfl rfl fun v => assign_withOperationID q op key v
  obtain ⟨p, hp, rfl⟩ := loop_argStep_simulation hsame hloop rfl
  have hextra : replicaTokens { q with operationID := op } = [bs "__replica"] := by
    simp [replicaTokens, htype]
  rw [h.parseUnchecked_replicaLine hop₀ hclosed (p := { q with operationID := op }) hop, hextra]
  simp only [Command.parse, List.cons_append]
  refine parseValue_eq_ok_iff.mpr ⟨metric, value, _, v, rfl, hv, readArgs_eq_ok_iff.mpr ?_⟩
  have hnotAnd : NotAnd [bs "__replica"] := by decide
  have happend := loop_argStep_append hnotAnd hp
  rw [hunread]
  split_ifs at happend with hleft
  · refine ⟨[], happend.trans ?_⟩
    have hflag : (setArg { q with operationID := op } (bs "__replica")).Reads []
        { q with operationID := op, isReplica := true } [] := .flag _ _
    rw [loop_of_reads hflag]
    simp [hleft, ArgLoop.loop, ArgLoop.run]
  · exact ⟨left ++ [bs "__replica"], happend.trans (by simp [hleft])⟩

/-! ## DELETE -/

/-- At another time only the bounds differ. -/
lemma deleteArg_corresponds_time (now now' : Int64) {q p : Query} (key : Bytes)
    (h : p = { q with from_ := p.from_, to_ := p.to_ }) :
    (deleteArg now q key).Corresponds (fun q p => p = { q with from_ := p.from_, to_ := p.to_ })
      (deleteArg now' p key) := by
  have hassign : ∀ v, p.assign key v =
      { q.assign key v with from_ := (p.assign key v).from_, to_ := (p.assign key v).to_ } := by
    intro v
    rw [h]
    unfold Query.assign
    split_ifs <;> rfl
  obtain ⟨f, t, rfl⟩ : ∃ f t, p = { q with from_ := f, to_ := t } := ⟨_, _, h⟩
  exact ite_corresponds ⟨rfl, rfl, rfl, rfl, fun _ => rfl⟩ <| ite_corresponds rfl <|
    ite_corresponds rfl <| ite_corresponds rfl <| ite_corresponds rfl <|
    ite_corresponds (timeArg_corresponds fun _ _ => rfl) <|
    ite_corresponds (timeArg_corresponds fun _ _ => rfl) <| assign_ok_corresponds hassign

lemma deleteArg_corresponds_op (now : Int64) {op : Bytes} {q p : Query} (key : Bytes)
    (h : p = { q with operationID := op }) :
    (deleteArg now q key).Corresponds (fun q p => p = { q with operationID := op })
      (deleteArg now p key) := by
  subst h
  exact ite_corresponds ⟨rfl, rfl, rfl, rfl, fun _ => rfl⟩ <| ite_corresponds rfl <|
    ite_corresponds rfl <| ite_corresponds rfl <| ite_corresponds rfl <|
    ite_corresponds (timeArg_corresponds_same fun _ => rfl) <|
    ite_corresponds (timeArg_corresponds_same fun _ => rfl) <|
    assign_ok_corresponds fun v => assign_withOperationID q op key v

/-- **A bound that is written out reads back**, whatever the time. -/
lemma parseTimeValue_format (now t : Int64) :
    parseTimeValue now (formatRFC3339Nano t) = .ok t := by
  have hnow : ¬ (bs "now").isPrefixOf (formatRFC3339Nano t) = true := by
    intro h
    have hmem : byte 'n' ∈ formatRFC3339Nano t :=
      (List.isPrefixOf_iff_prefix.mp h).mem (by decide)
    rcases mem_formatRFC3339Nano hmem with h | h
    · exact absurd h (by decide)
    · exact absurd h (by decide)
  rw [parseTimeValue, parseTimeAt, timeInstant,
    tokenValue_of_plain (plainWord_formatRFC3339Nano t)]
  simp only [if_neg hnow, parseRFC3339Nano_format, Except.map]
  rw [unixNano, Int64.ofInt_toInt]

lemma readArgs_bound {now t : Int64} {name : Bytes} {set : Query → Int64 → Query} (q : Query)
    (rest : List Bytes)
    (hname : ∀ q, ∃ missing, deleteArg now q name = timeArg now missing (set q)) :
    readArgs (deleteArg now) q (boundWords name t ++ rest) =
      readArgs (deleteArg now) (if t = 0 then q else set q t) rest := by
  unfold boundWords
  split_ifs with ht
  · rfl
  · refine readArgs_of_reads ?_
    obtain ⟨missing, hq⟩ := hname q
    rw [hq]
    exact .value (bind_eq_ok_iff.mpr ⟨t, parseTimeValue_format now t, rfl⟩)

/-- The appended bounds and flag, read by DELETE. -/
lemma readArgs_delete_replica (now f t : Int64) (q : Query) :
    readArgs (deleteArg now) q
        (boundWords (bs "FROM") f ++ (boundWords (bs "TO") t ++ [bs "__replica"])) =
      .ok { q with
        from_ := if f = 0 then q.from_ else f, to_ := if t = 0 then q.to_ else t,
        isReplica := true } := by
  have hfrom : ∀ q, ∃ missing, deleteArg now q (bs "FROM") =
      timeArg now missing fun ts => { q with from_ := ts } := fun q => ⟨_, rfl⟩
  have hto : ∀ q, ∃ missing, deleteArg now q (bs "TO") =
      timeArg now missing fun ts => { q with to_ := ts } := fun q => ⟨_, rfl⟩
  have hflag : ∀ q, (deleteArg now q (bs "__replica")).Reads [] { q with isReplica := true } [] :=
    fun q => .flag _ _
  rw [readArgs_bound q _ hfrom, readArgs_bound _ _ hto, readArgs_of_reads (hflag _)]
  show Except.ok _ = Except.ok _
  split_ifs <;> rfl

/-- A DELETE is read back; a bound that was not written out is the one the line gives at the
replica's time. -/
lemma ReadAs.parseUnchecked_delete {now : Int64} {line cmd : Bytes} {q : Query} {args : List Bytes}
    (h : ReadAs now line q .delete cmd args) (hop₀ : q.operationID = []) (hclosed : Closed line)
    {op : Bytes} (hop : IsOperationID op) (now' : Int64) :
    ∃ p, parseUnchecked now' line = .ok p ∧
      parseUnchecked now' (replicaLine line { q with operationID := op }) =
        .ok { q with
          operationID := op, isReplica := true,
          from_ := if q.from_ = 0 then p.from_ else q.from_,
          to_ := if q.to_ = 0 then p.to_ else q.to_ } := by
  have htype : q.type = .delete := h.type_eq
  have hparsed := h.parsed
  rw [hop₀] at hparsed
  obtain ⟨metric, args, rfl, hread⟩ := parseMetric_eq_ok_iff.mp hparsed
  have htime : ∀ q p key, p = { q with from_ := p.from_, to_ := p.to_ } →
      (deleteArg now q key).Corresponds (fun q p => p = { q with from_ := p.from_, to_ := p.to_ })
        (deleteArg now' p key) := fun q p key => deleteArg_corresponds_time now now' key
  have hsame : ∀ q p key, p = { q with operationID := op } →
      (deleteArg now' q key).Corresponds (fun q p => p = { q with operationID := op })
        (deleteArg now' p key) := fun q p key => deleteArg_corresponds_op now' key
  obtain ⟨p, hp, hpq⟩ := readArgs_simulation htime hread
    (p := { Command.delete.start [] cmd with metric := metric }) rfl
  obtain ⟨_, hp', rfl⟩ := readArgs_simulation hsame hp rfl
  refine ⟨p, ?_, ?_⟩
  · rw [parseUnchecked, h.prepared, hop₀]
    simp only [bind, Except.bind, parseTokens, h.plain, parseCommand, h.command, Command.parse]
    exact parseMetric_eq_ok_iff.mpr ⟨metric, args, rfl, hp⟩
  · have hextra : replicaTokens { q with operationID := op } =
        boundWords (bs "FROM") q.from_ ++ (boundWords (bs "TO") q.to_ ++ [bs "__replica"]) := by
      simp [replicaTokens, htype]
    have hnotAnd : NotAnd (boundWords (bs "FROM") q.from_ ++
        (boundWords (bs "TO") q.to_ ++ [bs "__replica"])) := by
      unfold boundWords
      split_ifs
      · exact notAnd_cons (by decide) _
      · exact notAnd_cons (by decide) _
      · exact notAnd_cons (by decide) _
      · exact notAnd_cons (by decide) _
    rw [h.parseUnchecked_replicaLine hop₀ hclosed (p := { q with operationID := op }) hop, hextra]
    simp only [Command.parse, List.cons_append]
    refine parseMetric_eq_ok_iff.mpr ⟨metric, _, rfl, ?_⟩
    refine ((readArgs_append (deleteArg_goes now') hnotAnd hp').trans
      (readArgs_delete_replica now' _ _ _)).trans ?_
    rw [hpq]

/-! ## The same mutation

The replica parses the line at another time. Nothing it reads depends on that time any more. -/

/-- The query the primary executes: the parsed one with the operation id the server gave it and, for
a WRITE that carries none, the timestamp of the executor's clock. -/
def assigned (clock : Int64) (s : Executor) (op : Bytes) (q : Query) : Query :=
  (assignTimestamp clock s { q with operationID := op }).2

lemma assigned_eq (clock : Int64) (s : Executor) (op : Bytes) (q : Query) :
    ∃ ts, assigned clock s op q = { q with operationID := op, timestamp := ts } := by
  unfold assigned assignTimestamp
  split_ifs
  · exact ⟨_, rfl⟩
  · exact ⟨q.timestamp, rfl⟩

lemma assigned_of_ne_write {q : Query} (h : q.type ≠ .write) (clock : Int64) (s : Executor)
    (op : Bytes) : assigned clock s op q = { q with operationID := op } := by
  simp [assigned, assignTimestamp, h]

/-- The replica's query changes what the primary's does, under the same operation id. -/
structure SameMutation (p q : Query) : Prop where
  type : q.type = p.type
  metric : q.metric = p.metric
  value : q.value = p.value
  tags : q.tags = p.tags
  updateLB : q.updateLB = p.updateLB
  lbEntityID : q.lbEntityID = p.lbEntityID
  lbEntities : q.lbEntities = p.lbEntities
  where_ : q.where_ = p.where_
  from_ : q.from_ = p.from_
  to_ : q.to_ = p.to_
  timestamp : q.timestamp = p.timestamp
  isReplica : q.isReplica = true
  operationID : q.operationID = p.operationID

/-- The lines a replica that parses at the time `now` reads as the primary did; `p` is the query
the primary executed. -/
structure Replicable (now : Int64) (line : Bytes) (p : Query) : Prop where
  closed : Closed line
  timestamp : p.type = .write → ¬ p.timestamp < 0
  read : p.type = .set → setUnread line = []
  bounds : p.type = .delete → ∀ r, parseUnchecked now line = .ok r →
    (p.from_ = 0 → r.from_ = 0) ∧ (p.to_ = 0 → r.to_ = 0)

/-- The checks do not look at the operation id, and the replica flag only matters to a dry run. -/
lemma validateQuery_replica {q : Query} (h : validateQuery q = .ok ()) (hdry : q.dryRun = false)
    (op : Bytes) {ts : Int64} (hts : ¬ ts < 0) :
    validateQuery { q with operationID := op, timestamp := ts, isReplica := true } = .ok () := by
  simp only [validateQuery, failIf_bind_eq_ok_iff, hdry] at h ⊢
  simp only [not_or] at h ⊢
  exact ⟨by simp, h.2.1, h.2.2.1, h.2.2.2.1, ⟨hts, h.2.2.2.2.1.2⟩, h.2.2.2.2.2⟩

section Replication

variable {now : Int64} {line : Bytes} {q : Query} (hq : parse now line = .ok q)
  (hmut : q.IsMutation) (hop₀ : q.operationID = []) {op : Bytes} (hop : IsOperationID op)

include hq hmut hop₀ hop

/-- **A replicable line is read as the query the primary executed**, with the replica flag. -/
lemma Replicable.parse_eq (hdry : q.dryRun = false) {clock now' : Int64} {s : Executor}
    (h : Replicable now' line (assigned clock s op q)) :
    parse now' (replicaLine line (assigned clock s op q)) =
      .ok { assigned clock s op q with isReplica := true } := by
  have hts₀ : ¬ q.timestamp < 0 := (Parsed.admitted ⟨now, line, hq⟩).timestamp_nonneg
  obtain ⟨c, cmd, args, hread⟩ := exists_readAs hq (by rcases hmut with h | h | h <;> simp [h])
  refine parse_eq_ok_iff.mpr ?_
  rcases hmut with htype | htype | htype <;> obtain hc := hread.type_eq.symm.trans htype
  · obtain rfl : c = .write := by cases c <;> simp_all [Command.type]
    obtain ⟨ts, hp⟩ := assigned_eq clock s op q
    rw [hp] at h ⊢
    have hts : ¬ ts < 0 := h.timestamp htype
    exact ⟨hread.parseUnchecked_write hop₀ h.closed hop hts now',
      validateQuery_replica hread.valid hdry op hts⟩
  · obtain rfl : c = .set := by cases c <;> simp_all [Command.type]
    rw [assigned_of_ne_write (by simp [htype])] at h ⊢
    refine ⟨?_, validateQuery_replica hread.valid hdry op hts₀⟩
    rw [hread.parseUnchecked_set hop₀ h.closed hop now', h.read htype]
    rfl
  · obtain rfl : c = .delete := by cases c <;> simp_all [Command.type]
    rw [assigned_of_ne_write (by simp [htype])] at h ⊢
    refine ⟨?_, validateQuery_replica hread.valid hdry op hts₀⟩
    obtain ⟨r, hr, hreplica⟩ := hread.parseUnchecked_delete hop₀ h.closed hop now'
    obtain ⟨hfrom, hto⟩ := h.bounds htype r hr
    have hf : (if q.from_ = 0 then r.from_ else q.from_) = q.from_ := by
      split_ifs with h0
      · rw [hfrom h0, h0]
      · rfl
    have ht : (if q.to_ = 0 then r.to_ else q.to_) = q.to_ := by
      split_ifs with h0
      · rw [hto h0, h0]
      · rfl
    rw [hreplica, hf, ht]

/-- **Only replicable lines mean the same mutation.** -/
lemma replicable_of_sameMutation (hrep : q.isReplica = false) {clock now' : Int64} {s : Executor}
    {q' : Query} (hparse : parse now' (replicaLine line (assigned clock s op q)) = .ok q')
    (hsame : SameMutation (assigned clock s op q) q') :
    Replicable now' line (assigned clock s op q) := by
  obtain ⟨c, cmd, args, hread⟩ := exists_readAs hq (by rcases hmut with h | h | h <;> simp [h])
  have hopid : (assigned clock s op q).operationID = op := by
    obtain ⟨ts, hp⟩ := assigned_eq clock s op q
    rw [hp]
  have hclosed : Closed line := by
    by_contra hopen
    refine parse_replicaLine_open hopen ?_ now' q' hparse
    rw [hopid]
    exact hop
  have hunchecked := (parse_eq_ok_iff.mp hparse).1
  refine ⟨hclosed, fun _ => ?_, fun htype => ?_, fun htype r hr => ?_⟩
  · rw [← hsame.timestamp]
    exact (Parsed.admitted ⟨now', _, hparse⟩).timestamp_nonneg
  · have hset : q.type = .set := by
      obtain ⟨ts, hp⟩ := assigned_eq clock s op q
      rwa [hp] at htype
    have hc := hread.type_eq.symm.trans hset
    obtain rfl : c = .set := by cases c <;> simp_all [Command.type]
    rw [assigned_of_ne_write (by simp [hset]), hread.parseUnchecked_set hop₀ hclosed hop,
      Except.ok.injEq] at hunchecked
    have := hsame.isReplica
    rw [← hunchecked] at this
    simpa [hrep] using this
  · have hdel : q.type = .delete := by
      obtain ⟨ts, hp⟩ := assigned_eq clock s op q
      rwa [hp] at htype
    have hc := hread.type_eq.symm.trans hdel
    obtain rfl : c = .delete := by cases c <;> simp_all [Command.type]
    have hp := assigned_of_ne_write (q := q) (by simp [hdel]) clock s op
    have hfrom := hsame.from_
    have hto := hsame.to_
    obtain ⟨r', hr', hreplica⟩ := hread.parseUnchecked_delete hop₀ hclosed hop now'
    obtain rfl : r' = r := by simpa [hr'] using hr
    rw [hp, hreplica, Except.ok.injEq] at hunchecked
    rw [← hunchecked, hp] at hfrom hto
    rw [hp]
    refine ⟨fun h0 => ?_, fun h0 => ?_⟩
    · simpa [show q.from_ = 0 from h0] using hfrom
    · simpa [show q.to_ = 0 from h0] using hto

/-- **The replicated line means the same mutation exactly when the line is replicable.** -/
theorem parse_replicaLine_iff (hdry : q.dryRun = false) (hrep : q.isReplica = false)
    (clock now' : Int64) (s : Executor) :
    (∃ q', parse now' (replicaLine line (assigned clock s op q)) = .ok q' ∧
        SameMutation (assigned clock s op q) q') ↔
      Replicable now' line (assigned clock s op q) := by
  constructor
  · rintro ⟨q', hparse, hsame⟩
    exact replicable_of_sameMutation hq hmut hop₀ hop hrep hparse hsame
  · intro h
    exact ⟨_, h.parse_eq hq hmut hop₀ hop hdry,
      ⟨rfl, rfl, rfl, rfl, rfl, rfl, rfl, rfl, rfl, rfl, rfl, rfl, rfl⟩⟩

end Replication

/-- An operation id. -/
def sampleOp : Bytes := bs "00112233445566778899aabbccddeeff"

/-- The query of a WRITE without a timestamp. -/
def sampleHit : Query where
  type := .write
  metric := bs "hits"
  value := .ofBits 0x3FF0000000000000
  updateLB := true
  lbEntityID := bs "bob"

/-- The line of a write with a leaderboard entity. -/
theorem parse_replicaLine_sampleHit :
    ∃ q', parse 9 (replicaLine (bs "WRITE hits 1 lb=bob") (assigned 7 ⟨0, ∅⟩ sampleOp sampleHit)) =
        .ok q' ∧ SameMutation (assigned 7 ⟨0, ∅⟩ sampleOp sampleHit) q' := by
  have hq : parse 3 (bs "WRITE hits 1 lb=bob") = .ok sampleHit := by decide +kernel
  have hop : IsOperationID sampleOp := by decide +kernel
  refine (parse_replicaLine_iff hq (Or.inl rfl) rfl hop rfl rfl 7 9 ⟨0, ∅⟩).mpr ?_
  exact ⟨by decide +kernel, fun _ => by decide, fun h => absurd h (by decide +kernel),
    fun h => absurd h (by decide +kernel)⟩

/-- A token left unread behind the `break` of SET swallows the replica flag; an open quote makes the
replica refuse the line; a bound that was zero at the primary's time is not zero a second later. -/
theorem replicaLine_misread :
    (∃ q, parse 0 (bs "SET hits 1 lb=bob to the top") = .ok q ∧ q.isReplica = false ∧
      parse 0 (replicaLine (bs "SET hits 1 lb=bob to the top") (assigned 0 ⟨0, ∅⟩ sampleOp q)) =
        .ok { q with operationID := sampleOp }) ∧
    (∃ q, parse 0 (bs "WRITE hits 1 lb='\"'") = .ok q ∧
      parse 0 (replicaLine (bs "WRITE hits 1 lb='\"'") (assigned 7 ⟨0, ∅⟩ sampleOp q)) =
        .error (bs "invalid quoted value")) ∧
    ∃ q, parse 31536000000000000 (bs "DELETE hits FROM now-1y") = .ok q ∧ q.from_ = 0 ∧
      parse 31536001000000000 (replicaLine (bs "DELETE hits FROM now-1y")
        (assigned 0 ⟨0, ∅⟩ sampleOp q)) =
          .ok { q with operationID := sampleOp, isReplica := true, from_ := 1000000000 } := by
  refine ⟨?_, ?_, { type := .delete, metric := bs "hits" }, ?_⟩
  · exact ⟨{ sampleHit with type := .set }, by decide +kernel⟩
  · exact ⟨{ sampleHit with lbEntityID := bs "'\"'" }, by decide +kernel⟩
  · decide +kernel

end FlameDB
