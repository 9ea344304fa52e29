import FlameDB.Server.Session

/-!
# One reply for each request

The trace of a session meets the duties of a server, with one exception: an internal session of a
clustered node can send a cluster message of an unknown type, and gets no answer to it.

* `Conn.Meets` — the trace so far was allowed and leaves the duty that fits the server's state.
* `Conn.meets_step` — one line of input keeps this unless it is left without an answer.
* `session_meets_iff` — a whole session meets its duties exactly when no line of it is.
-/

namespace FlameDB

open Go KV

lemma Duty.after_append (trace events : List Traffic) :
    Duty.after (trace ++ events) = (Duty.after trace).bind fun d => events.foldlM Duty.next d :=
  List.foldlM_append

lemma Duty.after_snoc (trace : List Traffic) (e : Traffic) :
    Duty.after (trace ++ [e]) = (Duty.after trace).bind fun d => d.next e := by
  rw [Duty.after_append]
  simp

/-! ## One reply for each handler -/

section Handlers

variable {cfg : ServerConfig} {env : RequestEnv} {session : Session}

/-- The cluster messages the server answers. -/
def clusterTypes : List Bytes :=
  [bs "CLUSTER_TOPOLOGY", bs "CLUSTER_REPLICATION_STATS", bs "CLUSTER_METRICS", bs "SET_CONFIG",
    bs "CLUSTER_EXPORT", bs "JOIN"]

/-- A cluster message of a type the server does not know, where administration is allowed. -/
def Silent (cfg : ServerConfig) (env : RequestEnv) (session : Session) (line : Bytes) : Prop :=
  session.internal = true ∧ cfg.shared = false ∧
    ∃ msg, env.decode (trimSpace (line.drop clusterHead.length)) = some msg ∧
      msg.type ∉ clusterTypes

lemma handleReplBatch_replies (s : ServerState) (line : Bytes) :
    ∃ r, (handleReplBatch cfg env session s line).replies = [r] := by
  rw [handleReplBatch]
  split_ifs
  · exact ⟨_, rfl⟩
  · exact ⟨_, rfl⟩
  · split <;> exact ⟨_, rfl⟩

lemma serveRouted_replies (s : ServerState) (line : Bytes) (q : Query) :
    ∃ r, (serveRouted env s line q).replies = [r] := by
  have hlocal : ∃ r, (serveLocal env s line q).replies = [r] := by
    rw [serveLocal]
    split_ifs <;> exact ⟨_, rfl⟩
  rw [serveRouted]
  split_ifs
  · exact ⟨_, rfl⟩
  · exact ⟨_, rfl⟩
  · dsimp only
    split_ifs
    · split
      · exact ⟨_, rfl⟩
      · exact hlocal
    · exact hlocal

lemma handleQuery_replies (s : ServerState) (line : Bytes) :
    ∃ r, (handleQuery cfg env session s line).replies = [r] := by
  rw [handleQuery]
  cases parse (env.batch.now 0) line with
  | error msg => exact ⟨_, rfl⟩
  | ok q =>
    dsimp only
    split_ifs
    · exact ⟨_, rfl⟩
    · exact ⟨_, rfl⟩
    · exact ⟨_, rfl⟩
    · rw [serveShared]
      split <;> exact ⟨_, rfl⟩
    · rw [serveMetrics]
      split <;> exact ⟨_, rfl⟩
    · rw [serveMetricList]
      split <;> exact ⟨_, rfl⟩
    · exact serveRouted_replies s line q

lemma serveBatch_replies (s : ServerState) (header : Bytes) (lines : List Bytes) :
    ∃ r, (serveBatch cfg env session s header lines).replies = [r] := by
  rw [serveBatch]
  split_ifs <;> exact ⟨_, rfl⟩

/-- The cluster messages that are answered, and those that are not. -/
lemma administer_replies (env : RequestEnv) (s : ServerState) {msg : DiscoveryMessage}
    (htop : msg.type ≠ bs "CLUSTER_TOPOLOGY") :
    if msg.type ∈ clusterTypes then ∃ r, (administer env s msg).replies = [r]
      else (administer env s msg).replies = [] := by
  rw [administer]
  by_cases hreport : msg.type = bs "CLUSTER_REPLICATION_STATS" ∨
      msg.type = bs "CLUSTER_METRICS" ∨ msg.type = bs "JOIN"
  · rw [if_pos (by rcases hreport with h | h | h <;> simp [clusterTypes, h]), if_pos hreport]
    exact ⟨_, rfl⟩
  rw [if_neg hreport]
  by_cases hset : msg.type = bs "SET_CONFIG"
  · rw [if_pos (by simp [clusterTypes, hset]), if_pos hset]
    exact ⟨_, rfl⟩
  rw [if_neg hset]
  by_cases hexport : msg.type = bs "CLUSTER_EXPORT"
  · rw [if_pos (by simp [clusterTypes, hexport]), if_pos hexport]
    split_ifs
    · exact ⟨_, rfl⟩
    · split <;> exact ⟨_, rfl⟩
  · rw [if_neg hexport, if_neg]
    simp only [clusterTypes, List.mem_cons, List.not_mem_nil, or_false]
    rintro (h | h | h | h | h | h)
    · exact htop h
    · exact hreport (Or.inl h)
    · exact hreport (Or.inr (Or.inl h))
    · exact hset h
    · exact hexport h
    · exact hreport (Or.inr (Or.inr h))

lemma handleCluster_replies (s : ServerState) (line : Bytes) :
    (Silent cfg env session line → (handleCluster cfg env session s line).replies = []) ∧
    (¬ Silent cfg env session line →
      ∃ r, (handleCluster cfg env session s line).replies = [r]) := by
  rw [handleCluster, Silent]
  cases env.decode (trimSpace (line.drop clusterHead.length)) with
  | none => exact ⟨by simp, fun _ => ⟨_, rfl⟩⟩
  | some msg =>
    simp only [Option.some.injEq, exists_eq_left']
    by_cases htop : msg.type = bs "CLUSTER_TOPOLOGY"
    · simp only [htop, if_true]
      refine ⟨fun h => absurd h.2.2 (by simp [clusterTypes]), fun _ => ?_⟩
      split_ifs <;> exact ⟨_, rfl⟩
    · simp only [htop, if_false]
      have hadmin := administer_replies env s htop
      cases session.internal with
      | false => exact ⟨by simp, fun _ => ⟨_, rfl⟩⟩
      | true =>
        cases cfg.shared with
        | true => exact ⟨by simp, fun _ => ⟨_, rfl⟩⟩
        | false =>
          by_cases hknown : msg.type ∈ clusterTypes
          · rw [if_pos hknown] at hadmin
            exact ⟨fun h => absurd hknown h.2.2, fun _ => hadmin⟩
          · rw [if_neg hknown] at hadmin
            exact ⟨fun _ => hadmin, fun h => absurd ⟨rfl, rfl, hknown⟩ h⟩

end Handlers

/-! ## The trace of a session

The replies on the wire answer the requests in order, whatever the client sends. -/

lemma not_isBatchHeader_of_frame {line : Bytes} (h : frameHead <+: line) :
    isBatchHeader line = false := by
  obtain ⟨rest, rfl⟩ := h
  have hfold : foldCase (frameHead ++ rest) = byte 'r' :: foldCase ((frameHead ++ rest).drop 1) :=
    rfl
  simp only [isBatchHeader, equalFold, hfold, Bool.or_eq_false_iff, decide_eq_false_iff_not]
  exact ⟨fun h => absurd (List.cons_eq_cons.mp h).1 (by decide),
    fun h => absurd (List.cons_eq_cons.mp h).1 (by decide)⟩

namespace Conn

variable {cfg : ServerConfig} {text : Reply → Line} {session : Session}

/-- The duty that fits the state of a connection. -/
def Fits (c : Conn) (d : Duty) : Prop :=
  match c.isOpen, c.phase with
  | false, _ => d = .over
  | true, .commands => d = .ready ∨ d = .answered
  | true, .body _ _ _ => d = .body
  | true, .returned => False

/-- The trace so far was allowed and leaves a duty that fits. -/
def Meets (c : Conn) : Prop := ∃ d, Duty.after c.trace = some d ∧ c.Fits d

/-- Nothing more is written. -/
lemma write_closed {c : Conn} (h : c.isOpen = false) (r : Reply) : c.write cfg text r = c := by
  simp [write, h]

lemma close_closed {c : Conn} (h : c.isOpen = false) : c.close = c := by simp [close, h]

lemma refuse_closed {c : Conn} (h : c.isOpen = false) (msg : Bytes) :
    c.refuse cfg text msg = c := by
  rw [refuse, write_closed h, close_closed h]

lemma serve_closed {c : Conn} (h : c.isOpen = false) (served : Served) :
    c.serve cfg text served =
      { c with server := served.state, actions := c.actions ++ served.actions } := by
  rw [serve]
  generalize served.replies = replies
  induction replies with
  | nil => rfl
  | cons r rest ih =>
    rw [List.foldl_cons, write_closed (by exact h)]
    exact ih

/-- A reply that is owed, and the end of the connection of an API node if it was too long. -/
lemma write_owed {c : Conn} (hopen : c.isOpen = true) (h : Duty.after c.trace = some .owed)
    (hphase : c.phase = .commands) (r : Reply) : (c.write cfg text r).Meets := by
  rw [write]
  simp only [hopen, Bool.not_true, Bool.false_eq_true, if_false]
  split_ifs
  · exact ⟨.over, by rw [Duty.after_append, h]; rfl, rfl⟩
  · refine ⟨.answered, by rw [Duty.after_append, h]; rfl, ?_⟩
    simp [Fits, hphase]

lemma refuse_over {c : Conn} (hopen : c.isOpen = true)
    (h : Duty.after c.trace = some .owed ∨ Duty.after c.trace = some .body) (msg : Bytes) :
    (c.refuse cfg text msg).isOpen = false ∧
      Duty.after (c.refuse cfg text msg).trace = some .over := by
  have htwo : ∀ line, Duty.after (c.trace ++ [.wrote line, .closed]) = some .over := by
    intro line
    rcases h with h | h <;> rw [Duty.after_append, h] <;> rfl
  rw [refuse, write]
  simp only [hopen, Bool.not_true, Bool.false_eq_true, if_false]
  split_ifs
  · exact ⟨rfl, htwo _⟩
  · simp only [close, if_true, List.append_assoc]
    exact ⟨trivial, htwo _⟩

lemma meets_of_over {c : Conn} (hclosed : c.isOpen = false)
    (h : Duty.after c.trace = some .over) : c.Meets :=
  ⟨.over, h, by simp [Fits, hclosed]⟩

lemma serve_owed {c : Conn} (hopen : c.isOpen = true) (h : Duty.after c.trace = some .owed)
    (hphase : c.phase = .commands) {served : Served} {r : Reply} (hr : served.replies = [r]) :
    (c.serve cfg text served).Meets := by
  rw [serve, hr]
  exact @write_owed cfg text
    { c with server := served.state, actions := c.actions ++ served.actions } hopen h hphase r

/-- On a closed connection a line is handled without a trace. -/
lemma stepCommand_closed {c : Conn} (h : c.isOpen = false) (env : RequestEnv) (line : Bytes) :
    (c.stepCommand cfg text session env line).isOpen = false ∧
      (c.stepCommand cfg text session env line).trace = c.trace := by
  rw [stepCommand]
  split_ifs
  · rw [refuse_closed h]
    exact ⟨h, rfl⟩
  · exact ⟨h, rfl⟩
  · rw [dispatch]
    cases lineKind line with
    | frame | cluster | query =>
      simp only [serve_closed h]
      exact ⟨h, trivial⟩
    | batch =>
      simp only [startBatch, refuse_closed h]
      split_ifs <;> exact ⟨h, rfl⟩

lemma stepBody_closed {c : Conn} (h : c.isOpen = false) (env : RequestEnv) (header : Bytes)
    (lines : List Bytes) (size : ℕ) (line : Bytes) :
    (c.stepBody cfg text session env header lines size line).isOpen = false ∧
      (c.stepBody cfg text session env header lines size line).trace = c.trace := by
  have hclosed : ({ c with phase := .commands } : Conn).isOpen = false := h
  rw [stepBody]
  split_ifs
  · rw [serve_closed hclosed]
    exact ⟨h, rfl⟩
  · exact ⟨h, rfl⟩
  · rw [refuse_closed hclosed]
    exact ⟨h, rfl⟩
  · exact ⟨h, rfl⟩

/-- A line that is left without an answer. -/
def Unanswered (cfg : ServerConfig) (session : Session) (c : Conn) (m : Moment) (token : Bytes) :
    Prop :=
  c.isOpen = true ∧ c.phase = .commands ∧ (trimSpace token).length ≤ lineLimit cfg session ∧
    lineKind (trimSpace token) = .cluster ∧ Silent cfg m.env session (trimSpace token)

lemma lineKind_ne_frame {line : Bytes} (h : isBatchHeader line = true) :
    lineKind line ≠ .frame := by
  intro hkind
  have hframe : frameHead <+: line := by
    by_contra hno
    rw [lineKind, if_neg hno, if_pos h] at hkind
    cases hkind
  rw [not_isBatchHeader_of_frame hframe] at h
  cases h

lemma lineKind_eq_batch_iff {line : Bytes} :
    lineKind line = .batch ↔ isBatchHeader line = true := by
  constructor
  · intro hkind
    by_contra hno
    rw [lineKind, if_neg hno] at hkind
    split_ifs at hkind
  · intro h
    have hne := lineKind_ne_frame h
    rw [lineKind, if_pos h] at hne ⊢
    split_ifs at hne ⊢
    · exact absurd rfl hne
    · rfl

/-- Whatever kind the line is of, its handler meets the duty. -/
lemma dispatch_meets {c : Conn} (hopen : c.isOpen = true) (hphase : c.phase = .commands)
    {line : Bytes}
    (h : Duty.after c.trace = some (if isBatchHeader line then .body else .owed)) (env : RequestEnv)
    (hanswered : lineKind line = .cluster → ¬ Silent cfg env session line) :
    (c.dispatch cfg text session env line).Meets := by
  rw [dispatch]
  have howed : lineKind line ≠ .batch → Duty.after c.trace = some .owed := by
    intro hne
    rwa [if_neg fun hyes => hne (lineKind_eq_batch_iff.mpr hyes)] at h
  cases hkind : lineKind line with
  | frame =>
    obtain ⟨r, hr⟩ := @handleReplBatch_replies cfg env session c.server line
    exact serve_owed hopen (howed (by simp [hkind])) hphase hr
  | batch =>
    rw [if_pos (lineKind_eq_batch_iff.mp hkind)] at h
    simp only [startBatch]
    split_ifs
    · obtain ⟨hclosed, hover⟩ := @refuse_over cfg text c hopen (Or.inr h)
        (bs "permission denied: write required")
      exact meets_of_over hclosed hover
    · exact ⟨.body, h, by simp [Fits, hopen]⟩
  | cluster =>
    obtain ⟨r, hr⟩ := (@handleCluster_replies cfg env session c.server line).2 (hanswered hkind)
    exact serve_owed hopen (howed (by simp [hkind])) hphase hr
  | query =>
    obtain ⟨r, hr⟩ := @handleQuery_replies cfg env session c.server line
    exact serve_owed hopen (howed (by simp [hkind])) hphase hr

lemma stepCommand_meets {c : Conn} (hopen : c.isOpen = true) (hphase : c.phase = .commands)
    {line : Bytes} (h : Duty.after c.trace = some (Duty.hear line)) (env : RequestEnv)
    (hanswered : line.length ≤ lineLimit cfg session → lineKind line = .cluster →
      ¬ Silent cfg env session line) :
    (c.stepCommand cfg text session env line).Meets := by
  rw [Duty.hear] at h
  rw [stepCommand]
  by_cases hlong : lineLimit cfg session < line.length
  · have hne : line ≠ [] := by
      rintro rfl
      exact absurd hlong (Nat.not_lt_zero _)
    rw [if_neg hne] at h
    rw [if_pos hlong]
    obtain ⟨hclosed, hover⟩ := @refuse_over cfg text c hopen
      (by split_ifs at h <;> simp [h]) (bs "command too large")
    exact meets_of_over hclosed hover
  rw [if_neg hlong]
  by_cases hblank : line = []
  · rw [if_pos hblank] at h ⊢
    exact ⟨.ready, h, by simp [Fits, hopen, hphase]⟩
  · rw [if_neg hblank] at h ⊢
    exact dispatch_meets hopen hphase h env (hanswered (Nat.not_lt.mp hlong))

lemma stepBody_meets {c : Conn} (hopen : c.isOpen = true) {header : Bytes} {lines : List Bytes}
    {size : ℕ} (hphase : c.phase = .body header lines size) {line : Bytes}
    (h : Duty.after c.trace = some (if isBatchEnd line then .owed else .body)) (env : RequestEnv) :
    (c.stepBody cfg text session env header lines size line).Meets := by
  rw [stepBody]
  split_ifs at h ⊢
  · obtain ⟨r, hr⟩ := @serveBatch_replies cfg env session c.server header lines
    exact @serve_owed cfg text { c with phase := .commands } hopen h rfl _ r hr
  · exact ⟨.body, h, by simp [Fits, hopen, hphase]⟩
  · obtain ⟨hclosed, hover⟩ := @refuse_over cfg text { c with phase := .commands } hopen
      (Or.inr h) (bs "batch limit exceeded")
    exact meets_of_over hclosed hover
  · exact ⟨.body, h, by simp [Fits, hopen]⟩

/-- **One line of input keeps the trace within the duties** unless it is left without an answer. -/
theorem meets_step {c : Conn} (h : c.Meets) {m : Moment} {token : Bytes}
    (hanswered : ¬ Unanswered cfg session c m token) :
    (c.step cfg text session m token).Meets := by
  obtain ⟨server, phase, isOpen, trace, actions⟩ := c
  obtain ⟨d, hafter, hfits⟩ := h
  have hheard := Duty.after_snoc trace (.received token)
  rw [show Duty.after trace = some d from hafter, Option.bind_some] at hheard
  cases isOpen with
  | false =>
    obtain rfl : d = .over := hfits
    cases phase with
    | returned => exact ⟨_, hafter, rfl⟩
    | commands =>
      obtain ⟨hclosed, htrace⟩ := @stepCommand_closed cfg text session
        ⟨m.others server, .commands, false, trace ++ [.received token], actions⟩ rfl m.env
        (trimSpace token)
      exact meets_of_over hclosed (htrace ▸ hheard)
    | body header lines size =>
      obtain ⟨hclosed, htrace⟩ := @stepBody_closed cfg text session
        ⟨m.others server, .body header lines size, false, trace ++ [.received token], actions⟩ rfl
        m.env header lines size (trimSpace token)
      exact meets_of_over hclosed (htrace ▸ hheard)
  | true =>
    cases phase with
    | returned => exact hfits.elim
    | commands =>
      refine stepCommand_meets rfl rfl ?_ m.env
        fun hlen hkind hsilent => hanswered ⟨rfl, rfl, hlen, hkind, hsilent⟩
      refine hheard.trans ?_
      rcases hfits with rfl | rfl <;> rfl
    | body header lines size =>
      obtain rfl : d = .body := hfits
      exact stepBody_meets rfl rfl hheard m.env

/-- At the end of the input an open batch is refused, and nothing else is owed. -/
lemma meets_finish {c : Conn} (h : c.Meets) : MeetsDuties (c.finish cfg text).trace := by
  obtain ⟨server, phase, isOpen, trace, actions⟩ := c
  obtain ⟨d, hafter, hfits⟩ := h
  have hheard := Duty.after_snoc trace .ended
  rw [show Duty.after trace = some d from hafter, Option.bind_some] at hheard
  cases isOpen with
  | false =>
    obtain rfl : d = .over := hfits
    cases phase with
    | returned => exact hafter
    | commands => exact hheard
    | body header lines size =>
      show Duty.after (refuse cfg text _ _).trace = _
      rw [refuse_closed rfl]
      exact hheard
  | true =>
    cases phase with
    | returned => exact hfits.elim
    | commands =>
      have hover : d.next .ended = some .over := by rcases hfits with rfl | rfl <;> rfl
      show Duty.after (trace ++ [.ended] ++ [.closed]) = _
      rw [Duty.after_snoc, hheard, hover]
      rfl
    | body header lines size =>
      obtain rfl : d = .body := hfits
      exact (refuse_over rfl (Or.inl hheard) _).2

lemma run_meets {moments : ℕ → Moment} {i : ℕ} {tokens : List Bytes} {c : Conn} (h : c.Meets)
    (hanswered : ∀ before token after, tokens = before ++ token :: after →
      ¬ Unanswered cfg session (run cfg text session moments i before c)
        (moments (i + before.length)) token) :
    (run cfg text session moments i tokens c).Meets := by
  induction tokens generalizing i c with
  | nil => exact h
  | cons token rest ih =>
    refine ih (meets_step h (hanswered [] token rest rfl)) ?_
    rintro before x after rfl
    have := hanswered (token :: before) x after rfl
    rwa [List.length_cons, ← Nat.add_assoc, Nat.add_right_comm] at this

/-! ### A line without an answer -/

lemma trace_write (c : Conn) (r : Reply) : c.trace <+: (c.write cfg text r).trace := by
  rw [write]
  split_ifs
  · exact List.prefix_rfl
  · exact List.prefix_append _ _
  · exact List.prefix_append _ _

lemma trace_close (c : Conn) : c.trace <+: c.close.trace := by
  rw [close]
  split_ifs
  · exact List.prefix_append _ _
  · exact List.prefix_rfl

lemma trace_refuse (c : Conn) (msg : Bytes) : c.trace <+: (c.refuse cfg text msg).trace :=
  (trace_write c _).trans (trace_close _)

lemma trace_serve (c : Conn) (served : Served) : c.trace <+: (c.serve cfg text served).trace := by
  suffices h : ∀ (replies : List Reply) (c : Conn),
      c.trace <+: (replies.foldl (write cfg text) c).trace from
    h served.replies { c with server := served.state, actions := c.actions ++ served.actions }
  intro replies
  induction replies with
  | nil => exact fun c => List.prefix_rfl
  | cons r rest ih => exact fun c => (trace_write c r).trans (ih _)

lemma trace_stepCommand (env : RequestEnv) (c : Conn) (line : Bytes) :
    c.trace <+: (c.stepCommand cfg text session env line).trace := by
  rw [stepCommand]
  split_ifs
  · exact trace_refuse c _
  · exact List.prefix_rfl
  · rw [dispatch]
    cases lineKind line with
    | frame => exact trace_serve c _
    | batch =>
      simp only [startBatch]
      split_ifs
      · exact trace_refuse c _
      · exact List.prefix_rfl
    | cluster => exact trace_serve c _
    | query => exact trace_serve c _

lemma trace_stepBody (env : RequestEnv) (c : Conn) (header : Bytes) (lines : List Bytes) (size : ℕ)
    (line : Bytes) : c.trace <+: (c.stepBody cfg text session env header lines size
      line).trace := by
  rw [stepBody]
  split_ifs
  · exact trace_serve { c with phase := .commands } _
  · exact List.prefix_rfl
  · exact trace_refuse { c with phase := .commands } _
  · exact List.prefix_rfl

/-- A step adds to the trace, first of all the line it read. -/
lemma trace_step (m : Moment) (c : Conn) (token : Bytes) :
    c.phase ≠ .returned →
      c.trace ++ [.received token] <+: (c.step cfg text session m token).trace := by
  obtain ⟨server, phase, isOpen, trace, actions⟩ := c
  cases phase with
  | returned => exact fun h => absurd rfl h
  | commands =>
    exact fun _ => trace_stepCommand m.env
      ⟨m.others server, .commands, isOpen, trace ++ [.received token], actions⟩ _
  | body header lines size =>
    exact fun _ => trace_stepBody m.env
      ⟨m.others server, .body header lines size, isOpen, trace ++ [.received token], actions⟩
      header lines size _

lemma trace_finish {c : Conn} (h : c.phase ≠ .returned) :
    c.trace ++ [.ended] <+: (c.finish cfg text).trace := by
  obtain ⟨server, phase, isOpen, trace, actions⟩ := c
  cases phase with
  | returned => exact absurd rfl h
  | commands => exact trace_close ⟨server, .returned, isOpen, trace ++ [.ended], actions⟩
  | body header lines size =>
    exact trace_refuse ⟨server, .returned, isOpen, trace ++ [.ended], actions⟩ _

lemma trace_run (moments : ℕ → Moment) (i : ℕ) (tokens : List Bytes) (c : Conn) :
    c.trace <+: (run cfg text session moments i tokens c).trace := by
  induction tokens generalizing i c with
  | nil => exact List.prefix_rfl
  | cons token rest ih =>
    refine List.IsPrefix.trans ?_ (ih (i + 1) _)
    by_cases hphase : c.phase = .returned
    · simp [step, hphase]
    · exact (List.prefix_append _ _).trans (trace_step (moments i) c token hphase)

lemma not_meetsDuties_of_prefix {before trace : List Traffic} (h : before <+: trace)
    (hnone : Duty.after before = none) : ¬ MeetsDuties trace := by
  obtain ⟨rest, rfl⟩ := h
  rw [MeetsDuties, Duty.after_append, hnone]
  simp

/-- Once a reply is missing, whatever is read next breaks the duties. -/
lemma not_meetsDuties_of_owed {c : Conn} (hphase : c.phase = .commands)
    (h : Duty.after c.trace = some .owed) (moments : ℕ → Moment) (i : ℕ) (tokens : List Bytes) :
    ¬ MeetsDuties ((run cfg text session moments i tokens c).finish cfg text).trace := by
  cases tokens with
  | nil =>
    show ¬ MeetsDuties (c.finish cfg text).trace
    exact not_meetsDuties_of_prefix (trace_finish (by simp [hphase]))
      (by rw [Duty.after_snoc, h]; rfl)
  | cons token rest =>
    have hnone : Duty.after (c.trace ++ [.received token]) = none := by
      rw [Duty.after_snoc, h]
      rfl
    have hrun := (@trace_step cfg text session (moments i) c token (by simp [hphase])).trans
      (@trace_run cfg text session moments (i + 1) rest _)
    refine not_meetsDuties_of_prefix (hrun.trans ?_) hnone
    by_cases hreturned : (run cfg text session moments i (token :: rest) c).phase = .returned
    · rw [finish, hreturned]
      exact List.prefix_rfl
    · exact (List.prefix_append _ _).trans (trace_finish hreturned)

/-- After such a line the server waits for the next command and still owes an answer. -/
lemma unanswered_step {c : Conn} (h : c.Meets) {m : Moment} {token : Bytes}
    (hun : Unanswered cfg session c m token) :
    (c.step cfg text session m token).phase = .commands ∧
      Duty.after (c.step cfg text session m token).trace = some .owed := by
  obtain ⟨server, phase, isOpen, trace, actions⟩ := c
  obtain ⟨rfl, rfl, hlen, hkind, hsilent⟩ := hun
  obtain ⟨d, hafter, hfits⟩ := h
  have hne : trimSpace token ≠ [] := by
    intro hnil
    rw [hnil] at hkind
    exact absurd hkind (by decide)
  have hheader : ¬ isBatchHeader (trimSpace token) = true := fun hyes => by
    rw [lineKind_eq_batch_iff.mpr hyes] at hkind
    cases hkind
  have hreplies := (@handleCluster_replies cfg m.env session (m.others server)
    (trimSpace token)).1 hsilent
  have hstep : step cfg text session m ⟨server, .commands, true, trace, actions⟩ token =
      ⟨(handleCluster cfg m.env session (m.others server) (trimSpace token)).state, .commands, true,
        trace ++ [.received token],
        actions ++ (handleCluster cfg m.env session (m.others server)
          (trimSpace token)).actions⟩ := by
    show stepCommand cfg text session m.env _ _ = _
    rw [stepCommand, if_neg (Nat.not_lt.mpr hlen), if_neg hne, dispatch, hkind]
    simp only [serve, hreplies, List.foldl_nil]
  rw [hstep]
  refine ⟨rfl, ?_⟩
  show Duty.after (trace ++ [.received token]) = _
  rw [Duty.after_snoc, show Duty.after trace = some d from hafter, Option.bind_some]
  rcases hfits with rfl | rfl <;> simp [Duty.next, Duty.hear, hne, hheader]

/-- One line without its answer, and the duties are never met again. -/
lemma answered_of_meetsDuties {moments : ℕ → Moment} {i : ℕ} {tokens : List Bytes} {c : Conn}
    (h : c.Meets)
    (hduties : MeetsDuties ((run cfg text session moments i tokens c).finish cfg text).trace) :
    ∀ before token after, tokens = before ++ token :: after →
      ¬ Unanswered cfg session (run cfg text session moments i before c)
        (moments (i + before.length)) token := by
  induction tokens generalizing i c with
  | nil => simp
  | cons token rest ih =>
    have hfirst : ¬ Unanswered cfg session c (moments i) token := by
      intro hun
      obtain ⟨hphase, howed⟩ := @unanswered_step cfg text session c h (moments i) token hun
      exact not_meetsDuties_of_owed hphase howed moments (i + 1) rest hduties
    intro before x after heq
    cases before with
    | nil =>
      obtain ⟨rfl, rfl⟩ := List.cons_eq_cons.mp heq
      exact hfirst
    | cons y before =>
      obtain ⟨rfl, rfl⟩ := List.cons_eq_cons.mp heq
      have := ih (meets_step h hfirst) hduties before x after rfl
      rwa [List.length_cons, ← Nat.add_assoc, Nat.add_right_comm]

end Conn

/-- **One reply for each request, in order**, in every session exactly when no line of it is a
cluster message that gets no answer: one of an unknown type, read from an internal session of a
clustered node while the connection is open. -/
theorem session_meets_iff (cfg : ServerConfig) (text : Reply → Line) (session : Session)
    (moments : ℕ → Moment) (s : ServerState) (tokens : List Bytes) :
    MeetsDuties (Conn.sessionTrace cfg text session moments s tokens) ↔
      ∀ before token after, tokens = before ++ token :: after →
        ¬ Conn.Unanswered cfg session
          (Conn.run cfg text session moments 0 before { server := s }) (moments before.length)
          token := by
  have hstart : ({ server := s } : Conn).Meets := ⟨.ready, rfl, Or.inl rfl⟩
  constructor
  · intro h before token after heq
    have := Conn.answered_of_meetsDuties hstart h before token after heq
    rwa [Nat.zero_add] at this
  · intro h
    refine Conn.meets_finish (Conn.run_meets hstart fun before token after heq => ?_)
    rw [Nat.zero_add]
    exact h before token after heq

def pingPayload : Bytes := bs "\x7b\"type\":\"PING\"\x7d"

/-- Replies and readings do not matter here; the decoder reads the one message that is sent. -/
def pingMoment : Moment where
  env :=
    { batch := calmEnv (twoNodes 2)
      ring := fun _ => twoNodes 2
      policy := .localFirst
      counter := fun _ => 0
      nodes := []
      send := fun _ _ => .error []
      commits := fun _ => none
      query := fun _ _ => .error []
      listMetrics := fun _ _ => .ok []
      exportMetric := fun _ _ => .error []
      upstreamResult := fun _ => .error []
      upstreamKeys := fun _ => .error []
      decode := fun payload => if payload = pingPayload then some { type := bs "PING" } else none
      encode := fun _ => []
      report := fun _ => []
      shared := ⟨fun _ => 0, none, ⟨1, by decide, 0⟩, ⟨fun _ => none, fun _ _ =>
        (fun _ => none, none)⟩⟩
      backend := fun _ => .error []
      backendKeys := fun _ => .ok [] }

/-- An internal session that sends a message of an unknown type, then lists the metrics, gets one
reply to its two requests. -/
theorem unknownMessage_unanswered :
    Conn.sessionTrace {} (fun _ => ⟨[], List.not_mem_nil⟩) ⟨true, true, true⟩ (fun _ => pingMoment)
        ⟨⟨0, ∅⟩, {}⟩ [clusterHead ++ pingPayload, bs "METRICS"] =
      [.received (clusterHead ++ pingPayload), .received (bs "METRICS"),
        .wrote ⟨[], List.not_mem_nil⟩, .ended, .closed] ∧
    ¬ MeetsDuties (Conn.sessionTrace {} (fun _ => ⟨[], List.not_mem_nil⟩) ⟨true, true, true⟩
      (fun _ => pingMoment) ⟨⟨0, ∅⟩, {}⟩ [clusterHead ++ pingPayload, bs "METRICS"]) := by
  have htrace : Conn.sessionTrace {} (fun _ => ⟨[], List.not_mem_nil⟩) ⟨true, true, true⟩
      (fun _ => pingMoment) ⟨⟨0, ∅⟩, {}⟩ [clusterHead ++ pingPayload, bs "METRICS"] =
      [.received (clusterHead ++ pingPayload), .received (bs "METRICS"),
        .wrote ⟨[], List.not_mem_nil⟩, .ended, .closed] := by decide +kernel
  refine ⟨htrace, ?_⟩
  rw [htrace, MeetsDuties]
  decide +kernel

end FlameDB
