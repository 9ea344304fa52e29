import FlameDB.Client.CommandPool
import FlameDB.Machine

/-!
# A failure that reports NOT_SENT

The status of a failure is read from the request's `sent` flag by the caller, possibly while the
worker is still running.  The worker sets the flag before it writes, but the caller may have read it
just before.  What makes the report true is the order of the cancellation handler: it sets
`cancelled`, closes the socket, and only then is the caller resumed.

* `Inv` — the invariant: leases are exclusive, a worker's socket is closed or is the one its
  connection would close, and once the handler has finished it is closed;
* `Inv.step`, `Inv.run` — every event, hence every run, keeps it;
* `notSent_truthful` — after a failure with NOT_SENT, no byte of the command ever reaches an open
  socket.
-/

namespace FlameDB.Client

/-- The socket a worker is about to write to, or is writing to. -/
def Worker.socket : Worker → Option SocketId
  | .ready s => some s
  | .checked s => some s
  | .writing s _ => some s
  | _ => none

/-- The worker has not set `sent`. -/
def Worker.beforeSend : Worker → Bool
  | .absent | .queued | .dialing | .connecting _ | .discarding _ | .ready _ | .checked _ => true
  | _ => false

/-- The worker has set `sent` and writes. -/
def Worker.sending : Worker → Bool
  | .writing _ _ => true
  | _ => false

/-- The worker still holds its connection. -/
def Worker.running : Worker → Bool
  | .absent | .resuming _ | .done => false
  | _ => true

/-- The worker is inside the block that `workerStarted` guards. -/
def Worker.started : Worker → Bool
  | .dialing | .connecting _ | .discarding _ | .ready _ | .checked _ | .writing _ _ => true
  | _ => false

/-- The error on its way to the caller. -/
def Worker.error : Worker → Option Thrown
  | .discarding e => some e
  | .failing e => some e
  | .finishing e => e
  | .resuming e => e
  | _ => none

/-- An error that reports NOT_SENT. -/
def Thrown.claimsNotSent : Thrown → Bool
  | .flame e => e.executionStatus = .notSent
  | _ => false

lemma RequestState.status_eq_notSent_iff (st : RequestState) :
    st.status = .notSent ↔ st.sent = false := by
  unfold status
  cases st.sent
  · simp
  · simp only [Bool.not_true, Bool.false_eq_true, if_false, reduceCtorEq, iff_false]
    split_ifs <;> simp

@[simp]
lemma RequestState.failure_status (st : RequestState) (kind : ErrorKind) (message : String) :
    (st.failure kind message).executionStatus = st.status := rfl

lemma timeoutFailure_status (q : Request) :
    (timeoutFailure q).executionStatus = q.state.status := by
  simp only [timeoutFailure]
  split_ifs <;> rfl

lemma cancelFailure_status (closed : Bool) (q : Request) :
    (cancelFailure closed q).executionStatus = q.state.status := by
  simp only [cancelFailure]
  split_ifs <;> rfl

/-! ## The invariant

The flags of a request follow its worker: before the first byte is written none of them says that it
was sent. -/

/-- The request has the connection. -/
def Request.Holds (q : Request) (c : ConnectionId) : Prop :=
  q.acquired = true ∧ q.finished = false ∧ q.connection = c

/-- What holds of one request in its surroundings. -/
structure RequestInv (p : Pool) (r : RequestId) (q : Request) : Prop where
  waiting : q.acquired = false → q.dispatched = false ∧ q.handler = .idle ∧ q.continuation = .active
  absent : q.dispatched = false → q.worker = .absent ∧ q.finished = false
  acquired : q.caller = .leased → q.acquired = true
  acquiring : q.caller = .absent ∨ q.caller = .acquiring → q.acquired = false
  running : q.worker.running = true → q.acquired = true ∧ q.finished = false
  started : q.worker.started = true → q.state.workerStarted = true
  unsent : q.worker.beforeSend = true → q.state.sent = false
  sending : q.worker.sending = true → q.state.sent = true
  wire : (∃ x ∈ p.wire, x.2.1 = r) → q.state.sent = true
  error : ∀ e, q.worker.error = some e → e.claimsNotSent = true → q.state.sent = false
  resumed : ∀ e, q.continuation = .resumed e → q.dispatched = true ∧ q.worker.running = false ∧
    ∀ e', e = some e' → e'.claimsNotSent = true → q.state.sent = false
  owned : ∀ s, q.worker.socket = some s → s < p.nextSocket ∧
    (p.isOpen s = false ∨ (p.connections q.connection).transport = some s)
  flagged : q.handler = .marked ∨ q.handler = .finished → q.cancelled = true
  handled : q.handler = .finished → ∀ s, q.worker.socket = some s → p.isOpen s = false
  verdict : ∀ e, q.caller = .failed e → e.executionStatus = .notSent →
    (∀ x ∈ p.wire, x.2.1 ≠ r) ∧ (q.handler = .finished ∨ q.worker.running = false)

/-- What holds of the pool at every moment of every run. -/
structure Inv (p : Pool) : Prop where
  transport : ∀ c s, (p.connections c).transport = some s → (p.connections c).socket = some s
  fresh : ∀ c s, (p.connections c).socket = some s → s < p.nextSocket
  busy : ∀ r c, (p.requests r).Holds c → p.idle c = false
  exclusive : ∀ r r' c, (p.requests r).Holds c → (p.requests r').Holds c → r = r'
  requests : ∀ r, RequestInv p r (p.requests r)

lemma inv_init : Inv {} where
  transport := by simp
  fresh := by simp
  busy := by simp [Request.Holds]
  exclusive := by simp [Request.Holds]
  requests := by
    intro r
    constructor <;> simp [Worker.running, Worker.started, Worker.sending, Worker.error,
      Worker.socket]

/-! ## Building blocks of the steps

A step changes one request and perhaps its connection. What it says about the others is proved here.
-/

/-- The invariant of a request depends on the pool only through the wire, the sockets and its own
connection. -/
lemma RequestInv.congr {p p' : Pool} {r : RequestId} {q : Request} (h : RequestInv p r q)
    (hwire : (∃ x ∈ p'.wire, x.2.1 = r) → ∃ x ∈ p.wire, x.2.1 = r)
    (hnext : p.nextSocket ≤ p'.nextSocket)
    (hopen : ∀ s < p.nextSocket, p.isOpen s = false → p'.isOpen s = false)
    (htransport : ∀ s, q.worker.socket = some s →
      (p.connections q.connection).transport = some s →
        p'.isOpen s = false ∨ (p'.connections q.connection).transport = some s) :
    RequestInv p' r q :=
  { h with
    wire := fun hx => h.wire (hwire hx)
    owned := by
      intro s hs
      obtain ⟨hlt, hor⟩ := h.owned s hs
      refine ⟨hlt.trans_le hnext, ?_⟩
      rcases hor with hclosed | ht
      · exact Or.inl (hopen s hlt hclosed)
      · exact htransport s hs ht
    handled := fun hh s hs => hopen s (h.owned s hs).1 (h.handled hh s hs)
    verdict := by
      intro e he hst
      obtain ⟨hno, hor⟩ := h.verdict e he hst
      refine ⟨fun x hx hr => ?_, hor⟩
      obtain ⟨y, hy, hyr⟩ := hwire ⟨x, hx, hr⟩
      exact hno y hy hyr }

@[simp]
lemma Pool.setRequest_same (p : Pool) (r : RequestId) (q : Request) :
    (p.setRequest r q).requests r = q := by
  simp [Pool.setRequest]

lemma Pool.setRequest_other (p : Pool) {r r' : RequestId} (q : Request) (h : r' ≠ r) :
    (p.setRequest r q).requests r' = p.requests r' := by
  simp [Pool.setRequest, h]

/-- A step of one request alone. -/
lemma Inv.setRequest {p : Pool} (h : Inv p) {r : RequestId} {q : Request} (hq : RequestInv p r q)
    (hholds : ∀ c, q.Holds c → (p.requests r).Holds c) : Inv (p.setRequest r q) where
  transport := h.transport
  fresh := h.fresh
  busy := by
    intro r' c hc
    by_cases hr : r' = r
    · subst hr
      rw [Pool.setRequest_same] at hc
      exact h.busy r' c (hholds c hc)
    · rw [Pool.setRequest_other p q hr] at hc
      exact h.busy r' c hc
  exclusive := by
    have hold : ∀ r' c, ((p.setRequest r q).requests r').Holds c → (p.requests r').Holds c := by
      intro r' c hc
      by_cases hr : r' = r
      · subst hr
        rw [Pool.setRequest_same] at hc
        exact hholds c hc
      · rwa [Pool.setRequest_other p q hr] at hc
    exact fun r₁ r₂ c h₁ h₂ => h.exclusive r₁ r₂ c (hold r₁ c h₁) (hold r₂ c h₂)
  requests := by
    intro r'
    by_cases hr : r' = r
    · subst hr
      rw [Pool.setRequest_same]
      exact hq.congr id le_rfl (fun _ _ => id) fun _ _ => Or.inr
    · rw [Pool.setRequest_other p q hr]
      exact (h.requests r').congr id le_rfl (fun _ _ => id) fun _ _ => Or.inr

/-- Closing a connection closes the socket of whoever works on it. -/
lemma invalidate_isOpen {p : Pool} {c : ConnectionId} {s : SocketId}
    (h : (p.connections c).socket = some s) : (p.invalidate c).isOpen s = false := by
  simp [Pool.invalidate, h, closeSocket]

lemma invalidate_isOpen_of_closed {p : Pool} {c : ConnectionId} {s : SocketId}
    (h : p.isOpen s = false) : (p.invalidate c).isOpen s = false := by
  change closeSocket p.isOpen (p.connections c).socket s = false
  cases (p.connections c).socket with
  | none => exact h
  | some s' =>
      rw [closeSocket, Function.update_apply]
      split_ifs
      · rfl
      · exact h

lemma invalidate_connections (p : Pool) (c : ConnectionId) :
    (p.invalidate c).connections = Function.update p.connections c
      { p.connections c with socket := none, transport := none } := rfl

lemma RequestInv.invalidate {p : Pool} (h : Inv p) {r : RequestId} {q : Request}
    (hq : RequestInv p r q) (c : ConnectionId) : RequestInv (p.invalidate c) r q := by
  refine hq.congr id le_rfl (fun s _ => invalidate_isOpen_of_closed) fun s _ ht => ?_
  by_cases hc : q.connection = c
  · subst hc
    exact Or.inl (invalidate_isOpen (h.transport _ s ht))
  · rw [invalidate_connections, Function.update_of_ne hc]
    exact Or.inr ht

lemma Inv.invalidate {p : Pool} (h : Inv p) (c : ConnectionId) : Inv (p.invalidate c) where
  transport := by
    intro c' s hs
    rw [invalidate_connections] at hs ⊢
    by_cases hc : c' = c
    · subst hc
      simp at hs
    · rw [Function.update_of_ne hc] at hs ⊢
      exact h.transport c' s hs
  fresh := by
    intro c' s hs
    rw [invalidate_connections] at hs
    by_cases hc : c' = c
    · subst hc
      simp at hs
    · rw [Function.update_of_ne hc] at hs
      exact h.fresh c' s hs
  busy := h.busy
  exclusive := h.exclusive
  requests r := (h.requests r).invalidate h c

/-! ## The steps -/

section Steps

variable {cfg : PoolConfig} {p p' : Pool} {r : RequestId}

lemma Inv.call (h : Inv p) (habs : (p.requests r).caller = .absent) {q : Request}
    (hq : q.caller = .acquiring) (hnew : q.acquired = false ∧ q.dispatched = false ∧
      q.finished = false ∧ q.worker = .absent ∧ q.handler = .idle ∧ q.continuation = .active ∧
      q.state.sent = false) : Inv (p.setRequest r q) := by
  have hr := h.requests r
  obtain ⟨h1, h2, h3, h4, h5, h6, h7⟩ := hnew
  have hsent := hr.unsent (by
    rw [(hr.absent (hr.waiting (hr.acquiring (Or.inl habs))).1).1]
    rfl)
  refine h.setRequest ?_ fun c hc => absurd hc.1 (by simp [h1])
  constructor
  case wire =>
    intro hx
    rw [hr.wire hx] at hsent
    exact absurd hsent (by simp)
  all_goals simp_all [Worker.running, Worker.started, Worker.sending, Worker.error, Worker.socket]

lemma Inv.refuse (h : Inv p) (hacq : (p.requests r).caller = .acquiring) (why : Refusal) :
    Inv (p.setRequest r { p.requests r with
      caller := .failed (refusal p.closed (p.requests r) why) }) := by
  have hr := h.requests r
  have hfree := hr.acquiring (Or.inr hacq)
  have hworker := (hr.absent (hr.waiting hfree).1).1
  have hsent : (p.requests r).state.sent = false := hr.unsent (by rw [hworker]; rfl)
  refine h.setRequest ?_ fun c hc => hc
  refine { hr with acquired := by simp, acquiring := by simp, verdict := ?_ }
  intro e _ _
  refine ⟨fun x hx hxr => ?_, Or.inr (by simp [hworker, Worker.running])⟩
  rw [hr.wire ⟨x, hx, hxr⟩] at hsent
  exact absurd hsent (by simp)

/-- What a running worker may become: still running, with the flags that go with its place. -/
structure WorkerMove (p : Pool) (q : Request) (w : Worker) (st : RequestState) : Prop where
  running : w.running = true
  started : w.started = true → st.workerStarted = true
  unsent : w.beforeSend = true → st.sent = false
  sending : w.sending = true → st.sent = true
  sent : q.state.sent = true → st.sent = true
  error : ∀ e, w.error = some e → e.claimsNotSent = true → st.sent = false
  owned : ∀ s, w.socket = some s → s < p.nextSocket ∧
    (p.isOpen s = false ∨ (p.connections q.connection).transport = some s)
  handled : q.handler = .finished → ∀ s, w.socket = some s → p.isOpen s = false

/-- **A running worker moves on.** -/
lemma Inv.moveWorker (h : Inv p) (hrun : (p.requests r).worker.running = true) {w : Worker}
    {st : RequestState} (hw : WorkerMove p (p.requests r) w st) :
    Inv (p.setRequest r { p.requests r with worker := w, state := st }) := by
  have hr := h.requests r
  have habs : (p.requests r).worker ≠ .absent := by
    intro hw
    simp [hw, Worker.running] at hrun
  refine h.setRequest ?_ fun c hc => hc
  exact { hr with
    absent := fun hd => absurd (hr.absent hd).1 habs
    running := fun _ => hr.running hrun
    started := hw.started
    unsent := hw.unsent
    sending := hw.sending
    wire := fun hx => hw.sent (hr.wire hx)
    error := hw.error
    resumed := by
      intro e he
      rw [(hr.resumed e he).2.1] at hrun
      exact absurd hrun (by simp)
    owned := hw.owned
    handled := hw.handled
    verdict := by
      intro e he hst
      obtain ⟨hno, hor⟩ := hr.verdict e he hst
      refine ⟨hno, Or.inl (hor.resolve_right ?_)⟩
      rw [hrun]
      simp }

/-- A worker that is not, or no longer, at a socket. -/
lemma WorkerMove.away {q : Request} {w : Worker} {st : RequestState} (hrun : w.running = true)
    (hsocket : w.socket = none) (hst : st.sent = q.state.sent)
    (hstart : w.started = true → st.workerStarted = true)
    (hsent : w.beforeSend = true → q.state.sent = false)
    (herr : ∀ e, w.error = some e → e.claimsNotSent = true → q.state.sent = false) :
    WorkerMove p q w st where
  running := hrun
  started := hstart
  unsent := by rwa [hst]
  sending := by
    intro hw
    cases w <;> simp_all [Worker.sending, Worker.socket]
  sent := by rw [hst]; exact id
  error := by rwa [hst]
  owned s hs := by simp [hsocket] at hs
  handled _ s hs := by simp [hsocket] at hs

/-- A failure made from the request's state is not about an earlier state. -/
lemma claimsNotSent_failure {st : RequestState} {kind : ErrorKind} {message : String}
    (h : (Thrown.flame (st.failure kind message)).claimsNotSent = true) : st.sent = false := by
  simpa [Thrown.claimsNotSent, RequestState.status_eq_notSent_iff] using h

lemma Inv.start (h : Inv p) (hw : (p.requests r).worker = .queued) (late : Bool) :
    Inv (p.setRequest r (startWorker late (p.requests r))) := by
  have hrun : (p.requests r).worker.running = true := by rw [hw]; rfl
  have hsent : (p.requests r).state.sent = false := (h.requests r).unsent (by rw [hw]; rfl)
  unfold startWorker
  split_ifs
  · exact h.moveWorker hrun (.away rfl rfl rfl (by simp [Worker.started])
      (by simp [Worker.beforeSend]) fun _ _ _ => hsent)
  · exact h.moveWorker hrun (.away rfl rfl rfl (by simp [Worker.started])
      (by simp [Worker.beforeSend]) fun _ _ _ => hsent)
  · exact h.moveWorker hrun (.away rfl rfl rfl (fun _ => rfl) (fun _ => hsent) fun _ _ _ => hsent)

/-- A new socket of a connection without transport. -/
lemma Inv.newSocket (h : Inv p) {c : ConnectionId} (hnone : (p.connections c).transport = none) :
    Inv ({ p with nextSocket := p.nextSocket + 1,
                  isOpen := Function.update p.isOpen p.nextSocket true }.setConnection c
      { p.connections c with socket := some p.nextSocket, transport := none }) where
  transport := by
    intro c' s hs
    by_cases hc : c' = c
    · subst hc
      simp [Pool.setConnection] at hs
    · simp only [Pool.setConnection, Function.update_of_ne hc] at hs ⊢
      exact h.transport c' s hs
  fresh := by
    intro c' s hs
    by_cases hc : c' = c
    · subst hc
      simp only [Pool.setConnection, Function.update_self, Option.some.injEq] at hs
      exact hs ▸ Nat.lt_succ_self _
    · simp only [Pool.setConnection, Function.update_of_ne hc] at hs ⊢
      exact Nat.lt_succ_of_lt (h.fresh c' s hs)
  busy := h.busy
  exclusive := h.exclusive
  requests r := by
    refine (h.requests r).congr id (Nat.le_succ _) (fun s hs hclosed => ?_) fun s _ ht => Or.inr ?_
    · simpa only [Pool.setConnection, Function.update_of_ne (Nat.ne_of_lt hs)] using hclosed
    · by_cases hc : (p.requests r).connection = c
      · simp [← hc, ht] at hnone
      · simpa only [Pool.setConnection, Function.update_of_ne hc] using ht

/-- The first lock of `dial`. -/
lemma Inv.dialEnter (h : Inv p) (hw : (p.requests r).worker = .dialing) :
    Inv (dialEnter p r) := by
  have hr := h.requests r
  have hrun : (p.requests r).worker.running = true := by rw [hw]; rfl
  have hsent : (p.requests r).state.sent = false := hr.unsent (by rw [hw]; rfl)
  have hstarted : (p.requests r).state.workerStarted = true := hr.started (by rw [hw]; rfl)
  simp only [Client.dialEnter]
  split_ifs with hclosed hcancel
  · exact h.moveWorker hrun (.away rfl rfl rfl (by simp [Worker.started])
      (by simp [Worker.beforeSend]) fun _ _ _ => hsent)
  · exact h.moveWorker hrun (.away rfl rfl rfl (by simp [Worker.started])
      (by simp [Worker.beforeSend]) fun _ _ _ => hsent)
  · cases ht : (p.connections (p.requests r).connection).transport with
    | some s =>
        refine h.moveWorker hrun ⟨rfl, fun _ => hstarted, fun _ => hsent, by simp [Worker.sending],
          id, by simp [Worker.error], ?_, fun hf => ?_⟩
        · intro s' hs
          obtain rfl : s = s' := by simpa [Worker.socket] using hs
          exact ⟨h.fresh _ _ (h.transport _ _ ht), Or.inr ht⟩
        · exact absurd (hr.flagged (Or.inr hf)) hcancel
    | none =>
        have hmove : ∀ p₁, WorkerMove p₁ (p.requests r) (.connecting p.nextSocket)
            { (p.requests r).state with phase := .connect } := fun _ =>
          .away rfl rfl rfl (fun _ => hstarted) (fun _ => hsent) fun _ _ _ => hsent
        exact (h.newSocket ht).moveWorker hrun (hmove _)

/-- The handshake is complete: the connection keeps the transport. -/
lemma Inv.setTransport (h : Inv p) {c : ConnectionId} {s : SocketId}
    (hs : (p.connections c).socket = some s) :
    Inv (p.setConnection c { p.connections c with transport := some s }) where
  transport := by
    intro c' s' ht
    by_cases hc : c' = c
    · subst hc
      simp only [Pool.setConnection, Function.update_self, Option.some.injEq] at ht ⊢
      exact ht ▸ hs
    · simp only [Pool.setConnection, Function.update_of_ne hc] at ht ⊢
      exact h.transport c' s' ht
  fresh := by
    intro c' s' hs'
    by_cases hc : c' = c
    · subst hc
      simp only [Pool.setConnection, Function.update_self] at hs'
      exact h.fresh c' s' hs'
    · simp only [Pool.setConnection, Function.update_of_ne hc] at hs'
      exact h.fresh c' s' hs'
  busy := h.busy
  exclusive := h.exclusive
  requests r := by
    refine (h.requests r).congr id le_rfl (fun _ _ => id) fun s' _ ht => Or.inr ?_
    by_cases hc : (p.requests r).connection = c
    · -- the old transport, if any, was on the same socket
      have hs' := h.transport _ s' ht
      rw [hc, hs] at hs'
      simpa [Pool.setConnection, hc] using hs'
    · simpa only [Pool.setConnection, Function.update_of_ne hc] using ht

lemma Inv.dialCommit (h : Inv p) {s : SocketId} (hw : (p.requests r).worker = .connecting s) :
    Inv (dialCommit p r s) := by
  have hr := h.requests r
  have hrun : (p.requests r).worker.running = true := by rw [hw]; rfl
  have hsent : (p.requests r).state.sent = false := hr.unsent (by rw [hw]; rfl)
  have hstarted : (p.requests r).state.workerStarted = true := hr.started (by rw [hw]; rfl)
  simp only [Client.dialCommit]
  split_ifs with hgone
  · exact h.moveWorker hrun (.away rfl rfl rfl (fun _ => hstarted) (fun _ => hsent)
      fun _ _ _ => hsent)
  · simp only [not_or, not_not] at hgone
    refine (h.setTransport hgone.1).moveWorker hrun ⟨rfl, fun _ => hstarted, fun _ => hsent,
      by simp [Worker.sending], id, by simp [Worker.error], ?_, fun hf => ?_⟩
    · intro s' hs
      obtain rfl : s = s' := by simpa [Worker.socket] using hs
      exact ⟨h.fresh _ _ hgone.1, Or.inr (by simp [Pool.setConnection])⟩
    · exact absurd (hr.flagged (Or.inr hf)) hgone.2.2

lemma Inv.checkSend (h : Inv p) {s : SocketId} (hw : (p.requests r).worker = .ready s)
    (late : Bool) (thrown : Option SocketError) :
    Inv (p.setRequest r (checkSend late thrown (p.requests r) s)) := by
  have hr := h.requests r
  have hrun : (p.requests r).worker.running = true := by rw [hw]; rfl
  have hsent : (p.requests r).state.sent = false := hr.unsent (by rw [hw]; rfl)
  have hstarted : (p.requests r).state.workerStarted = true := hr.started (by rw [hw]; rfl)
  have hsocket : (p.requests r).worker.socket = some s := by rw [hw]; rfl
  unfold Client.checkSend
  split_ifs with hlines hcancel
  · exact h.moveWorker hrun (.away rfl rfl rfl (by simp [Worker.started])
      (by simp [Worker.beforeSend]) fun _ _ _ => hsent)
  · exact h.moveWorker hrun (.away rfl rfl rfl (by simp [Worker.started])
      (by simp [Worker.beforeSend]) fun _ _ _ => hsent)
  · exact h.moveWorker hrun (.away rfl rfl rfl (by simp [Worker.started])
      (by simp [Worker.beforeSend]) fun _ _ _ => hsent)
  · cases thrown with
    | some e =>
        exact h.moveWorker hrun (.away rfl rfl rfl (by simp [Worker.started])
          (by simp [Worker.beforeSend]) fun _ _ _ => hsent)
    | none =>
        refine h.moveWorker hrun ⟨rfl, fun _ => hstarted, fun _ => hsent, by simp [Worker.sending],
          id, by simp [Worker.error], fun s' hs => ?_, fun hf s' hs => ?_⟩
        · exact hr.owned s' (hsocket.trans hs)
        · exact hr.handled hf s' (hsocket.trans hs)

/-- The flag is set before the first byte is written. -/
lemma Inv.markSent (h : Inv p) {s : SocketId} (hw : (p.requests r).worker = .checked s)
    (text : List Char) :
    Inv (p.setRequest r { p.requests r with
      state := { (p.requests r).state with sent := true }, worker := .writing s text }) := by
  have hr := h.requests r
  have hrun : (p.requests r).worker.running = true := by rw [hw]; rfl
  have hstarted : (p.requests r).state.workerStarted = true := hr.started (by rw [hw]; rfl)
  have hsocket : (p.requests r).worker.socket = some s := by rw [hw]; rfl
  exact h.moveWorker hrun ⟨rfl, fun _ => hstarted, by simp [Worker.beforeSend], fun _ => rfl,
    fun _ => rfl, by simp [Worker.error], fun s' hs => hr.owned s' (hsocket.trans hs),
    fun hf s' hs => hr.handled hf s' (hsocket.trans hs)⟩

/-- **Bytes reach an open socket** only from a request that has not reported NOT_SENT. -/
lemma Inv.write (h : Inv p) {s : SocketId} {text : List Char}
    (hw : (p.requests r).worker = .writing s text) (hopen : p.isOpen s = true) (sent : List Char)
    (rest : List Char) :
    Inv ({ p with wire := p.wire ++ [(s, r, sent)] }.setRequest r
      { p.requests r with worker := .writing s rest }) := by
  have hr := h.requests r
  have hrun : (p.requests r).worker.running = true := by rw [hw]; rfl
  have hstarted : (p.requests r).state.workerStarted = true := hr.started (by rw [hw]; rfl)
  have hsocket : (p.requests r).worker.socket = some s := by rw [hw]; rfl
  have hsent : (p.requests r).state.sent = true := hr.sending (by rw [hw]; rfl)
  have hwire : Inv { p with wire := p.wire ++ [(s, r, sent)] } := by
    refine ⟨h.transport, h.fresh, h.busy, h.exclusive, fun r' => ?_⟩
    by_cases hrr : r' = r
    · subst hrr
      refine { hr with wire := fun _ => hsent, verdict := ?_ }
      intro e he hst
      -- the handler has finished, so the socket would be closed
      rcases (hr.verdict e he hst).2 with hf | hnot
      · exact absurd (hr.handled hf s hsocket) (by simp [hopen])
      · exact absurd hnot (by simp [hrun])
    · refine (h.requests r').congr ?_ le_rfl (fun _ _ => id) fun _ _ => Or.inr
      rintro ⟨x, hx, hxr⟩
      rcases List.mem_append.mp hx with hx | hx
      · exact ⟨x, hx, hxr⟩
      · simp only [List.mem_singleton] at hx
        exact absurd hxr (by simp [hx, Ne.symm hrr])
  exact hwire.moveWorker hrun ⟨rfl, fun _ => hstarted, by simp [Worker.beforeSend], fun _ => hsent,
    id, by simp [Worker.error], fun s' hs => hr.owned s' (hsocket.trans hs),
    fun hf s' hs => hr.handled hf s' (hsocket.trans hs)⟩

lemma Inv.answered (h : Inv p) {s : SocketId} {text : List Char}
    (hw : (p.requests r).worker = .writing s text) (a : Answer) :
    Inv (p.setRequest r (answered (p.requests r) a)) := by
  have hrun : (p.requests r).worker.running = true := by rw [hw]; rfl
  cases a with
  | result =>
      exact h.moveWorker hrun (.away rfl rfl rfl (by simp [Worker.started])
        (by simp [Worker.beforeSend]) (by simp [Worker.error]))
  | lateResult =>
      exact h.moveWorker hrun (.away rfl rfl rfl (by simp [Worker.started])
        (by simp [Worker.beforeSend])
        (by simp [Worker.error, deadlineExceeded, Thrown.claimsNotSent]))
  | rejected message =>
      refine h.moveWorker hrun (.away rfl rfl rfl (by simp [Worker.started])
        (by simp [Worker.beforeSend]) fun e he hc => ?_)
      obtain rfl := Option.some.inj he
      exact claimsNotSent_failure hc
  | broken e =>
      exact h.moveWorker hrun (.away rfl rfl rfl (by simp [Worker.started])
        (by simp [Worker.beforeSend]) (by simp [Worker.error, Thrown.claimsNotSent]))

/-- An error passes from one place of the worker to the next. -/
lemma Inv.passError (h : Inv p) {e : Thrown} {w : Worker}
    (hrun : (p.requests r).worker.running = true)
    (he : (p.requests r).worker.error = some e) (hw : w = .failing e ∨ w = .finishing (some e)) :
    Inv (p.setRequest r { p.requests r with worker := w }) := by
  have herr := (h.requests r).error e he
  rcases hw with rfl | rfl
  · refine h.moveWorker hrun (.away rfl rfl rfl (by simp [Worker.started])
      (by simp [Worker.beforeSend]) fun e' he' => ?_)
    obtain rfl : e = e' := by simpa [Worker.error] using he'
    exact herr
  · refine h.moveWorker hrun (.away rfl rfl rfl (by simp [Worker.started])
      (by simp [Worker.beforeSend]) fun e' he' => ?_)
    obtain rfl : e = e' := by simpa [Worker.error] using he'
    exact herr

lemma Inv.crash (h : Inv p) (hw : (p.requests r).worker.inCommand = true) (message : String) :
    Inv (p.setRequest r { p.requests r with worker := .finishing (some (.error message)) }) := by
  have hrun : (p.requests r).worker.running = true := by
    cases hworker : (p.requests r).worker <;> simp_all [Worker.inCommand, Worker.running]
  exact h.moveWorker hrun (.away rfl rfl rfl (by simp [Worker.started])
    (by simp [Worker.beforeSend]) (by simp [Worker.error, Thrown.claimsNotSent]))

/-- A request gives its connection back. -/
lemma Inv.release (h : Inv p) {q : Request}
    (hholds : (p.requests r).Holds (p.requests r).connection)
    (hfin : q.finished = true) (hq : RequestInv p r q) :
    Inv ({ p with idle := Function.update p.idle (p.requests r).connection true
      }.setRequest r q) where
  transport := h.transport
  fresh := h.fresh
  busy := by
    intro r' c hc
    by_cases hr : r' = r
    · subst hr
      rw [Pool.setRequest_same] at hc
      exact absurd hc.2.1 (by simp [hfin])
    · rw [Pool.setRequest_other _ q hr] at hc
      have hne : c ≠ (p.requests r).connection := by
        rintro rfl
        exact hr (h.exclusive r' r _ hc hholds)
      simpa only [Pool.setRequest, Function.update_of_ne hne] using h.busy r' c hc
  exclusive := by
    intro r₁ r₂ c h₁ h₂
    by_cases hr₁ : r₁ = r
    · subst hr₁
      rw [Pool.setRequest_same] at h₁
      exact absurd h₁.2.1 (by simp [hfin])
    · by_cases hr₂ : r₂ = r
      · subst hr₂
        rw [Pool.setRequest_same] at h₂
        exact absurd h₂.2.1 (by simp [hfin])
      · rw [Pool.setRequest_other _ q hr₁] at h₁
        rw [Pool.setRequest_other _ q hr₂] at h₂
        exact h.exclusive r₁ r₂ c h₁ h₂
  requests := by
    intro r'
    by_cases hr : r' = r
    · subst hr
      rw [Pool.setRequest_same]
      exact hq.congr id le_rfl (fun _ _ => id) fun _ _ => Or.inr
    · rw [Pool.setRequest_other _ q hr]
      exact (h.requests r').congr id le_rfl (fun _ _ => id) fun _ _ => Or.inr

/-- The worker returns the connection to the pool. -/
lemma Inv.finish (h : Inv p) {result : Option Thrown}
    (hw : (p.requests r).worker = .finishing result) :
    Inv ({ p with idle := Function.update p.idle (p.requests r).connection true }.setRequest r
      { p.requests r with finished := true, worker := .resuming result }) := by
  have hr := h.requests r
  have hrun : (p.requests r).worker.running = true := by rw [hw]; rfl
  obtain ⟨hacq, hfin⟩ := hr.running hrun
  have hdisp : (p.requests r).dispatched = true := by
    by_contra hd
    rw [(hr.absent (by simpa using hd)).1] at hw
    simp at hw
  refine h.release ⟨hacq, hfin, rfl⟩ rfl ?_
  exact { hr with
    absent := fun hd => absurd (hdisp.symm.trans hd) (by simp)
    running := by simp [Worker.running]
    started := by simp [Worker.started]
    unsent := by simp [Worker.beforeSend]
    sending := by simp [Worker.sending]
    error := fun e he => hr.error e (by rw [hw]; exact he)
    resumed := by
      intro e he
      rw [(hr.resumed e he).2.1] at hrun
      exact absurd hrun (by simp)
    owned := by simp [Worker.socket]
    handled := by simp [Worker.socket]
    verdict := fun e he hst => ⟨(hr.verdict e he hst).1, Or.inr rfl⟩ }

lemma Inv.dispatchRefused (h : Inv p) (hcaller : (p.requests r).caller = .leased)
    (hdisp : (p.requests r).dispatched = false) (message : String) :
    Inv (dispatchRefused p r message) := by
  have hr := h.requests r
  have hacq := hr.acquired hcaller
  obtain ⟨hw, hfin⟩ := hr.absent hdisp
  refine h.release ⟨hacq, hfin, rfl⟩ rfl ?_
  exact { hr with
    waiting := fun ha => absurd (hacq.symm.trans ha) (by simp)
    absent := by simp
    running := by simp [hw, Worker.running]
    resumed := by
      intro e he
      refine ⟨rfl, by simp [hw, Worker.running], ?_⟩
      intro e' hee' hc
      exact hr.unsent (by rw [hw]; rfl) }

/-- The worker hands its result to the continuation. -/
lemma Inv.resume (h : Inv p) {result : Option Thrown}
    (hw : (p.requests r).worker = .resuming result) :
    Inv (p.setRequest r { p.requests r with
      worker := .done
      continuation := if (p.requests r).continuation = .active then .resumed result
        else (p.requests r).continuation }) := by
  have hr := h.requests r
  have hdisp : (p.requests r).dispatched = true := by
    by_contra hd
    rw [(hr.absent (by simpa using hd)).1] at hw
    simp at hw
  refine h.setRequest ?_ fun c hc => hc
  exact { hr with
    waiting := fun ha => absurd hdisp (by simp [(hr.waiting ha).1])
    absent := fun hd => absurd (hdisp.symm.trans hd) (by simp)
    running := by simp [Worker.running]
    started := by simp [Worker.started]
    unsent := by simp [Worker.beforeSend]
    sending := by simp [Worker.sending]
    error := by simp [Worker.error]
    resumed := by
      intro e he
      refine ⟨hdisp, rfl, fun e' hee' hc => ?_⟩
      simp only at he
      split_ifs at he with hact
      · obtain rfl : result = e := by simpa using he
        exact hr.error e' (by rw [hw]; exact hee') hc
      · exact (hr.resumed e he).2.2 e' hee' hc
    owned := by simp [Worker.socket]
    handled := by simp [Worker.socket]
    verdict := fun e he hst => ⟨(hr.verdict e he hst).1, Or.inr rfl⟩ }

/-- The pool lends an idle connection. -/
lemma Inv.acquire (h : Inv p) (hcaller : (p.requests r).caller = .acquiring) {c : ConnectionId}
    (hidle : p.idle c = true) (phase : Phase) :
    Inv ({ p with idle := Function.update p.idle c false }.setRequest r
      { p.requests r with
        caller := .leased, acquired := true, connection := c
        state := { (p.requests r).state with phase := phase } }) := by
  have hr := h.requests r
  have hnew := hr.acquiring (Or.inr hcaller)
  have hdisp := (hr.waiting hnew).1
  obtain ⟨hw, hfin⟩ := hr.absent hdisp
  have hfree : ∀ r', ¬ (p.requests r').Holds c := fun r' hc => by
    rw [h.busy r' c hc] at hidle
    exact absurd hidle (by simp)
  refine ⟨h.transport, h.fresh, fun r' c' hc' => ?_, fun r₁ r₂ c' h₁ h₂ => ?_, fun r' => ?_⟩
  · by_cases hcc : c' = c
    · subst hcc
      simp [Pool.setRequest]
    · simp only [Pool.setRequest, Function.update_of_ne hcc]
      by_cases hrr : r' = r
      · subst hrr
        rw [Pool.setRequest_same] at hc'
        exact absurd hc'.2.2.symm hcc
      · rw [Pool.setRequest_other _ _ hrr] at hc'
        exact h.busy r' c' hc'
  · by_cases hr₁ : r₁ = r <;> by_cases hr₂ : r₂ = r
    · rw [hr₁, hr₂]
    · subst hr₁
      rw [Pool.setRequest_same] at h₁
      rw [Pool.setRequest_other _ _ hr₂] at h₂
      obtain rfl : c = c' := h₁.2.2
      exact absurd h₂ (hfree r₂)
    · subst hr₂
      rw [Pool.setRequest_same] at h₂
      rw [Pool.setRequest_other _ _ hr₁] at h₁
      obtain rfl : c = c' := h₂.2.2
      exact absurd h₁ (hfree r₁)
    · rw [Pool.setRequest_other _ _ hr₁] at h₁
      rw [Pool.setRequest_other _ _ hr₂] at h₂
      exact h.exclusive r₁ r₂ c' h₁ h₂
  · by_cases hrr : r' = r
    · subst hrr
      rw [Pool.setRequest_same]
      exact { hr with
        waiting := by simp
        acquired := by simp
        acquiring := by simp
        running := by simp [hw, Worker.running]
        owned := by simp [hw, Worker.socket]
        verdict := by simp }
    · rw [Pool.setRequest_other _ _ hrr]
      exact (h.requests r').congr id le_rfl (fun _ _ => id) fun _ _ => Or.inr

lemma Inv.dispatch (h : Inv p) (hcaller : (p.requests r).caller = .leased)
    (hdisp : (p.requests r).dispatched = false) :
    Inv (p.setRequest r { p.requests r with worker := .queued, dispatched := true }) := by
  have hr := h.requests r
  have hacq := hr.acquired hcaller
  obtain ⟨hw, hfin⟩ := hr.absent hdisp
  refine h.setRequest ?_ fun c hc => hc
  exact { hr with
    waiting := fun ha => absurd (hacq.symm.trans ha) (by simp)
    absent := by simp
    running := fun _ => ⟨hacq, hfin⟩
    started := by simp [Worker.started]
    unsent := fun _ => hr.unsent (by rw [hw]; rfl)
    sending := by simp [Worker.sending]
    error := by simp [Worker.error]
    resumed := fun e he => absurd (hr.resumed e he).1 (by simp [hdisp])
    owned := by simp [Worker.socket]
    handled := by simp [Worker.socket]
    verdict := fun e he => absurd (hcaller.symm.trans he) (by simp) }

/-- The caller is cancelled, and its handler runs. -/
lemma Inv.cancel (h : Inv p) (hcaller : (p.requests r).caller = .leased) :
    Inv (p.setRequest r { p.requests r with continuation := .cancelled, handler := .called }) := by
  have hr := h.requests r
  have hacq := hr.acquired hcaller
  refine h.setRequest ?_ fun c hc => hc
  exact { hr with
    waiting := fun ha => absurd (hacq.symm.trans ha) (by simp)
    resumed := by simp
    flagged := by simp
    handled := by simp
    verdict := fun e he => absurd (hcaller.symm.trans he) (by simp) }

lemma Inv.handlerMark (h : Inv p) (hh : (p.requests r).handler = .called) :
    Inv (p.setRequest r { p.requests r with handler := .marked, cancelled := true }) := by
  have hr := h.requests r
  refine h.setRequest ?_ fun c hc => hc
  exact { hr with
    waiting := fun ha => absurd (hr.waiting ha).2.1 (by simp [hh])
    flagged := by simp
    handled := by simp
    verdict := by
      intro e he hst
      obtain ⟨hno, hor⟩ := hr.verdict e he hst
      exact ⟨hno, Or.inr (hor.resolve_left (by simp [hh]))⟩ }

/-- **The handler finishes**: from here on the worker has no open socket to write to. -/
lemma Inv.handlerFinish (h : Inv p) (hh : (p.requests r).handler = .marked) :
    Inv ((if !(p.requests r).finished ∧ (p.requests r).state.workerStarted then
      p.invalidate (p.requests r).connection else p).setRequest r
        { p.requests r with handler := .finished }) := by
  have hcancel := (h.requests r).flagged (Or.inl hh)
  have key : ∀ p₁ : Pool, Inv p₁ → p₁.requests = p.requests →
      (∀ s, (p.requests r).worker.socket = some s → p₁.isOpen s = false) →
      Inv (p₁.setRequest r { p.requests r with handler := .finished }) := by
    intro p₁ h₁ hreq hclosed
    have hr := h₁.requests r
    rw [hreq] at hr
    refine h₁.setRequest ?_ fun c hc => by rw [hreq]; exact hc
    exact { hr with
      waiting := fun ha => absurd (hr.waiting ha).2.1 (by simp [hh])
      flagged := fun _ => hcancel
      handled := fun _ => hclosed
      verdict := fun e he hst => ⟨(hr.verdict e he hst).1, Or.inl rfl⟩ }
  split_ifs with hrunning
  · refine key _ (h.invalidate _) rfl fun s hs => ?_
    rcases ((h.requests r).owned s hs).2 with hclosed | ht
    · exact invalidate_isOpen_of_closed hclosed
    · exact invalidate_isOpen (h.transport _ _ ht)
  · refine key p h rfl fun s hs => absurd ?_ hrunning
    have hr := h.requests r
    have hplace : (p.requests r).worker.running = true ∧ (p.requests r).worker.started = true := by
      cases hw : (p.requests r).worker <;>
        simp_all [Worker.socket, Worker.running, Worker.started]
    constructor
    · rw [(hr.running hplace.1).2]
      rfl
    · exact hr.started hplace.2

/-- A suspended call returns with a failure. -/
lemma Inv.fail (h : Inv p) {e : FlameDBException}
    (hstatus : e.executionStatus = .notSent → (p.requests r).state.sent = false)
    (hover : (p.requests r).handler = .finished ∨ (p.requests r).worker.running = false) :
    Inv (p.setRequest r { p.requests r with caller := .failed e }) := by
  have hr := h.requests r
  refine h.setRequest ?_ fun c hc => hc
  exact { hr with
    acquired := by simp
    acquiring := by simp
    verdict := by
      intro e' he' hst
      obtain rfl : e = e' := by simpa using he'
      refine ⟨fun x hx hxr => ?_, hover⟩
      have := hr.wire ⟨x, hx, hxr⟩
      rw [hstatus hst] at this
      exact absurd this (by simp) }

/-- A suspended call returns without a failure of the client. -/
lemma Inv.leave (h : Inv p) {caller : Caller} (hcaller : caller = .succeeded ∨ ∃ m,
    caller = .crashed m) :
    Inv (p.setRequest r { p.requests r with caller := caller }) := by
  refine h.setRequest ?_ fun c hc => hc
  rcases hcaller with rfl | ⟨m, rfl⟩
  · exact { h.requests r with acquired := by simp, acquiring := by simp, verdict := by simp }
  · exact { h.requests r with acquired := by simp, acquiring := by simp, verdict := by simp }

/-- The caller takes a result out of its continuation. -/
lemma Inv.resumedReturn (h : Inv p)
    {result : Option Thrown} (hres : (p.requests r).continuation = .resumed result)
    (late : Option Bool) :
    Inv (p.setRequest r { p.requests r with
      caller := match late with
        | some true => .failed (timeoutFailure (p.requests r))
        | some false => .failed (cancelFailure p.closed (p.requests r))
        | none => returned p.closed (p.requests r) result }) := by
  have hr := h.requests r
  obtain ⟨-, hover, herr⟩ := hr.resumed result hres
  have hst := RequestState.status_eq_notSent_iff (p.requests r).state
  match late with
  | some true =>
      exact h.fail (by rw [timeoutFailure_status]; exact hst.mp) (Or.inr hover)
  | some false =>
      exact h.fail (by rw [cancelFailure_status]; exact hst.mp) (Or.inr hover)
  | none =>
      match result with
      | none => exact h.leave (.inl rfl)
      | some (.error message) => exact h.leave (.inr ⟨message, rfl⟩)
      | some (.flame e) =>
          exact h.fail (fun hs => herr _ rfl (by simpa [Thrown.claimsNotSent] using hs))
            (Or.inr hover)
      | some .cancellation =>
          exact h.fail (by rw [cancelFailure_status]; exact hst.mp) (Or.inr hover)
      | some (.socket e) => exact h.fail hst.mp (Or.inr hover)

/-- Closing takes socket and transport away together. -/
lemma Inv.closeConnection (h : Inv p) (c : ConnectionId) : Inv (p.closeConnection c) := by
  have hmark : Inv (p.setConnection c { p.connections c with permanentlyClosed := true }) := by
    have hsame : ∀ c', ((p.setConnection c { p.connections c with
        permanentlyClosed := true }).connections c').socket = (p.connections c').socket ∧
        ((p.setConnection c { p.connections c with
          permanentlyClosed := true }).connections c').transport =
            (p.connections c').transport := by
      intro c'
      by_cases hc : c' = c
      · subst hc
        simp [Pool.setConnection]
      · simp [Pool.setConnection, hc]
    refine ⟨fun c' s hs => ?_, fun c' s hs => ?_, h.busy, h.exclusive, fun r => ?_⟩
    · rw [(hsame c').2] at hs
      rw [(hsame c').1]
      exact h.transport c' s hs
    · rw [(hsame c').1] at hs
      exact h.fresh c' s hs
    · refine (h.requests r).congr id le_rfl (fun _ _ => id) fun s _ ht => Or.inr ?_
      rw [(hsame _).2]
      exact ht
  exact hmark.invalidate c

/-- **Every event keeps the invariant.** -/
theorem Inv.step (h : Inv p) {e : Event} (hstep : step cfg p e = some p') : Inv p' := by
  cases e with
  | call r lines =>
      simp only [Client.step, Option.ite_none_right_eq_some, Option.some.injEq] at hstep
      obtain ⟨⟨habs, -⟩, rfl⟩ := hstep
      exact h.call habs rfl ⟨rfl, rfl, rfl, rfl, rfl, rfl, rfl⟩
  | connect r =>
      simp only [Client.step, Option.ite_none_right_eq_some, Option.some.injEq] at hstep
      obtain ⟨habs, rfl⟩ := hstep
      exact h.call habs rfl ⟨rfl, rfl, rfl, rfl, rfl, rfl, rfl⟩
  | refuse r why =>
      simp only [Client.step, Option.ite_none_right_eq_some, Option.some.injEq] at hstep
      obtain ⟨hcaller, rfl⟩ := hstep
      exact h.refuse hcaller why
  | acquire r c =>
      simp only [Client.step, Option.ite_none_right_eq_some, Option.some.injEq] at hstep
      obtain ⟨⟨hcaller, -, hidle⟩, rfl⟩ := hstep
      exact h.acquire hcaller hidle .connect
  | dispatch r =>
      simp only [Client.step, Option.ite_none_right_eq_some, Option.some.injEq,
        Bool.not_eq_eq_eq_not, Bool.not_true] at hstep
      obtain ⟨⟨hcaller, hdisp⟩, rfl⟩ := hstep
      exact h.dispatch hcaller hdisp
  | dispatchRefused r message =>
      simp only [Client.step, Option.ite_none_right_eq_some, Option.some.injEq,
        Bool.not_eq_eq_eq_not, Bool.not_true] at hstep
      obtain ⟨⟨hcaller, hdisp, -⟩, rfl⟩ := hstep
      exact h.dispatchRefused hcaller hdisp message
  | cancel r =>
      simp only [Client.step, Option.ite_none_right_eq_some, Option.some.injEq] at hstep
      obtain ⟨⟨hcaller, -⟩, rfl⟩ := hstep
      exact h.cancel hcaller
  | handlerMark r =>
      simp only [Client.step, Option.ite_none_right_eq_some, Option.some.injEq] at hstep
      obtain ⟨hh, rfl⟩ := hstep
      exact h.handlerMark hh
  | handlerFinish r =>
      simp only [Client.step, Option.ite_none_right_eq_some, Option.some.injEq] at hstep
      obtain ⟨hh, rfl⟩ := hstep
      exact h.handlerFinish hh
  | start r late =>
      simp only [Client.step, Option.ite_none_right_eq_some, Option.some.injEq] at hstep
      obtain ⟨⟨hw, -⟩, rfl⟩ := hstep
      exact h.start hw late
  | dialEnter r =>
      simp only [Client.step, Option.ite_none_right_eq_some, Option.some.injEq] at hstep
      obtain ⟨hw, rfl⟩ := hstep
      exact h.dialEnter hw
  | authenticate r =>
      simp only [Client.step] at hstep
      split at hstep
      · rename_i s hw
        obtain rfl := Option.some.inj hstep
        have hr := h.requests r
        exact h.moveWorker (by rw [hw]; rfl) (.away (by rw [hw]; rfl) (by rw [hw]; rfl) rfl
          hr.started hr.unsent hr.error)
      · exact absurd hstep (by simp)
  | dialFail r e =>
      simp only [Client.step] at hstep
      split at hstep
      · rename_i s hw
        obtain rfl := Option.some.inj hstep
        exact h.moveWorker (by rw [hw]; rfl) (.away rfl rfl rfl
          (fun _ => (h.requests r).started (by rw [hw]; rfl))
          (fun _ => (h.requests r).unsent (by rw [hw]; rfl))
          fun _ _ _ => (h.requests r).unsent (by rw [hw]; rfl))
      · exact absurd hstep (by simp)
  | authRefused r message =>
      simp only [Client.step] at hstep
      split at hstep
      · rename_i s hw
        obtain rfl := Option.some.inj hstep
        exact h.moveWorker (by rw [hw]; rfl) (.away rfl rfl rfl
          (fun _ => (h.requests r).started (by rw [hw]; rfl))
          (fun _ => (h.requests r).unsent (by rw [hw]; rfl))
          fun _ _ _ => (h.requests r).unsent (by rw [hw]; rfl))
      · exact absurd hstep (by simp)
  | dialCommit r =>
      simp only [Client.step] at hstep
      split at hstep
      · rename_i s hw
        obtain rfl := Option.some.inj hstep
        exact h.dialCommit hw
      · exact absurd hstep (by simp)
  | discard r =>
      simp only [Client.step] at hstep
      split at hstep
      · rename_i e hw
        obtain rfl := Option.some.inj hstep
        have hrun : (p.requests r).worker.running = true := by rw [hw]; rfl
        have herr : (p.requests r).worker.error = some e := by rw [hw]; rfl
        exact (h.invalidate _).passError hrun herr (Or.inl rfl)
      · exact absurd hstep (by simp)
  | check r late thrown =>
      simp only [Client.step] at hstep
      split at hstep
      · rename_i s hw
        obtain rfl := Option.some.inj hstep
        exact h.checkSend hw late thrown
      · exact absurd hstep (by simp)
  | markSent r =>
      simp only [Client.step] at hstep
      split at hstep
      · rename_i s hw
        obtain rfl := Option.some.inj hstep
        exact h.markSent hw _
      · exact absurd hstep (by simp)
  | write r n =>
      simp only [Client.step] at hstep
      split at hstep
      · rename_i s text hw
        split_ifs at hstep with hopen
        · obtain rfl := Option.some.inj hstep
          exact h.write hw hopen _ _
        · obtain rfl := Option.some.inj hstep
          exact h.answered hw (.broken (.other "Socket closed"))
      · exact absurd hstep (by simp)
  | writeFail r message =>
      simp only [Client.step] at hstep
      split at hstep
      · rename_i s text hw
        obtain rfl := Option.some.inj hstep
        exact h.answered hw (.broken (.other message))
      · exact absurd hstep (by simp)
  | answer r a =>
      simp only [Client.step] at hstep
      split at hstep
      · rename_i s hw
        obtain rfl := Option.some.inj hstep
        exact h.answered hw a
      · exact absurd hstep (by simp)
  | caught r =>
      simp only [Client.step] at hstep
      split at hstep
      · rename_i e hw
        obtain rfl := Option.some.inj hstep
        have hrun : (p.requests r).worker.running = true := by rw [hw]; rfl
        have herr : (p.requests r).worker.error = some e := by rw [hw]; rfl
        split_ifs
        · exact (h.invalidate _).passError hrun herr (Or.inr rfl)
        · exact h.passError hrun herr (Or.inr rfl)
      · exact absurd hstep (by simp)
  | crash r message =>
      simp only [Client.step, Option.ite_none_right_eq_some, Option.some.injEq] at hstep
      obtain ⟨hw, rfl⟩ := hstep
      exact h.crash hw message
  | finish r =>
      simp only [Client.step] at hstep
      split at hstep
      · rename_i result hw
        simp only [Option.ite_none_right_eq_some, Option.some.injEq] at hstep
        obtain ⟨-, rfl⟩ := hstep
        exact h.finish hw
      · exact absurd hstep (by simp)
  | resume r =>
      simp only [Client.step] at hstep
      split at hstep
      · rename_i result hw
        obtain rfl := Option.some.inj hstep
        exact h.resume hw
      · exact absurd hstep (by simp)
  | cancelledReturn r late =>
      simp only [Client.step, Option.ite_none_right_eq_some, Option.some.injEq] at hstep
      obtain ⟨⟨-, -, -, hh⟩, rfl⟩ := hstep
      refine h.fail ?_ (Or.inl hh)
      rw [← RequestState.status_eq_notSent_iff]
      split_ifs
      · rw [timeoutFailure_status]
        exact id
      · rw [cancelFailure_status]
        exact id
  | resumedReturn r late =>
      simp only [Client.step] at hstep
      split at hstep
      · rename_i result hres
        simp only [Option.ite_none_right_eq_some, Option.some.injEq] at hstep
        obtain ⟨-, rfl⟩ := hstep
        exact h.resumedReturn hres late
      · exact absurd hstep (by simp)
  | close =>
      obtain rfl := Option.some.inj hstep
      exact ⟨h.transport, h.fresh, h.busy, h.exclusive, fun r =>
        (h.requests r).congr id le_rfl (fun _ _ => id) fun _ _ => Or.inr⟩
  | closeConnection c =>
      simp only [Client.step, Option.ite_none_right_eq_some, Option.some.injEq] at hstep
      obtain ⟨-, rfl⟩ := hstep
      exact h.closeConnection c

/-- **Every run keeps the invariant.** -/
theorem Inv.run (h : Inv p) {es : List Event}
    (hrun : Machine.run (Client.step cfg) p es = some p') :
    Inv p' :=
  Machine.run_invariant (Q := fun _ => True) (fun hp _ hstep => hp.step hstep) h
    (fun _ _ => trivial) hrun

/-! ## The report

The status a caller reads is computed from the flags at the moment of failure. -/

/-- Setting a request keeps a verdict when it keeps the request's caller, or that caller has not
returned yet. -/
lemma Failed.setRequest {e : FlameDBException} (hfail : (p.requests r).caller = .failed e)
    {p₁ : Pool} (hreq : p₁.requests = p.requests) {r' : RequestId} {q : Request}
    (hq : q.caller = (p.requests r').caller ∨ ∀ e, (p.requests r').caller ≠ .failed e) :
    ((p₁.setRequest r' q).requests r).caller = .failed e := by
  by_cases hr : r = r'
  · subst hr
    rw [Pool.setRequest_same, hq.resolve_right fun h => h e hfail, hfail]
  · rw [Pool.setRequest_other _ _ hr, hreq, hfail]

lemma startWorker_caller (late : Bool) (q : Request) : (startWorker late q).caller = q.caller := by
  unfold startWorker
  split_ifs <;> rfl

lemma checkSend_caller (late : Bool) (thrown : Option SocketError) (q : Request) (s : SocketId) :
    (checkSend late thrown q s).caller = q.caller := by
  unfold checkSend
  split_ifs <;> rfl

lemma answered_caller (q : Request) (a : Answer) : (answered q a).caller = q.caller := by
  cases a <;> rfl

lemma dialEnter_failed {e : FlameDBException} (hfail : (p.requests r).caller = .failed e)
    (r' : RequestId) : ((dialEnter p r').requests r).caller = .failed e := by
  simp only [dialEnter]
  split_ifs
  · exact Failed.setRequest hfail rfl (Or.inl rfl)
  · exact Failed.setRequest hfail rfl (Or.inl rfl)
  · cases (p.connections (p.requests r').connection).transport with
    | some s => exact Failed.setRequest hfail rfl (Or.inl rfl)
    | none => exact Failed.setRequest hfail rfl (Or.inl rfl)

lemma dialCommit_failed {e : FlameDBException} (hfail : (p.requests r).caller = .failed e)
    (r' : RequestId) (s : SocketId) : ((dialCommit p r' s).requests r).caller = .failed e := by
  simp only [dialCommit]
  split_ifs
  · exact Failed.setRequest hfail rfl (Or.inl rfl)
  · exact Failed.setRequest hfail rfl (Or.inl rfl)

/-- A verdict is final: a step changes the caller of a request only before it has returned. -/
lemma step_failed {e : FlameDBException} (hfail : (p.requests r).caller = .failed e)
    {ev : Event} (hstep : Client.step cfg p ev = some p') : (p'.requests r).caller = .failed e := by
  cases ev with
  | close =>
      obtain rfl := Option.some.inj hstep
      exact hfail
  | closeConnection c =>
      simp only [Client.step, Option.ite_none_right_eq_some, Option.some.injEq] at hstep
      obtain ⟨-, rfl⟩ := hstep
      exact hfail
  | dialEnter r' =>
      simp only [Client.step, Option.ite_none_right_eq_some, Option.some.injEq] at hstep
      obtain ⟨-, rfl⟩ := hstep
      exact dialEnter_failed hfail r'
  | dialCommit r' =>
      simp only [Client.step] at hstep
      split at hstep
      · obtain rfl := Option.some.inj hstep
        exact dialCommit_failed hfail r' _
      · exact absurd hstep (by simp)
  | start r' late =>
      simp only [Client.step, Option.ite_none_right_eq_some, Option.some.injEq] at hstep
      obtain ⟨-, rfl⟩ := hstep
      exact Failed.setRequest hfail rfl (Or.inl (startWorker_caller _ _))
  | check r' late thrown =>
      simp only [Client.step] at hstep
      split at hstep
      · obtain rfl := Option.some.inj hstep
        exact Failed.setRequest hfail rfl (Or.inl (checkSend_caller _ _ _ _))
      · exact absurd hstep (by simp)
  | answer r' a =>
      simp only [Client.step] at hstep
      split at hstep
      · obtain rfl := Option.some.inj hstep
        exact Failed.setRequest hfail rfl (Or.inl (answered_caller _ _))
      · exact absurd hstep (by simp)
  -- the caller itself moves only where the guard says that it has not returned
  | call r' lines =>
      simp only [Client.step, Option.ite_none_right_eq_some, Option.some.injEq] at hstep
      obtain ⟨⟨hcaller, -⟩, rfl⟩ := hstep
      exact Failed.setRequest hfail rfl (Or.inr (by simp [hcaller]))
  | connect r' =>
      simp only [Client.step, Option.ite_none_right_eq_some, Option.some.injEq] at hstep
      obtain ⟨hcaller, rfl⟩ := hstep
      exact Failed.setRequest hfail rfl (Or.inr (by simp [hcaller]))
  | refuse r' why =>
      simp only [Client.step, Option.ite_none_right_eq_some, Option.some.injEq] at hstep
      obtain ⟨hcaller, rfl⟩ := hstep
      exact Failed.setRequest hfail rfl (Or.inr (by simp [hcaller]))
  | acquire r' c =>
      simp only [Client.step, Option.ite_none_right_eq_some, Option.some.injEq] at hstep
      obtain ⟨⟨hcaller, -⟩, rfl⟩ := hstep
      exact Failed.setRequest hfail rfl (Or.inr (by simp [hcaller]))
  | cancelledReturn r' late =>
      simp only [Client.step, Option.ite_none_right_eq_some, Option.some.injEq] at hstep
      obtain ⟨⟨hcaller, -⟩, rfl⟩ := hstep
      exact Failed.setRequest hfail rfl (Or.inr (by simp [hcaller]))
  | resumedReturn r' late =>
      simp only [Client.step] at hstep
      split at hstep
      · simp only [Option.ite_none_right_eq_some, Option.some.injEq] at hstep
        obtain ⟨⟨hcaller, -⟩, rfl⟩ := hstep
        exact Failed.setRequest hfail rfl (Or.inr (by simp [hcaller]))
      · exact absurd hstep (by simp)
  | _ =>
      simp only [Client.step] at hstep
      (repeat' split at hstep) <;> simp only [Option.some.injEq, reduceCtorEq] at hstep <;>
        subst hstep
      all_goals exact Failed.setRequest hfail rfl (Or.inl rfl)

lemma run_failed {e : FlameDBException} (hfail : (p.requests r).caller = .failed e)
    {es : List Event} (hrun : Machine.run (Client.step cfg) p es = some p') :
    (p'.requests r).caller = .failed e :=
  Machine.run_invariant (P := fun p => (p.requests r).caller = .failed e) (Q := fun _ => True)
    (fun hp _ hstep => step_failed hp hstep) hfail (fun _ _ => trivial) hrun

end Steps

/-- **NOT_SENT is truthful**: in every interleaving, once a command has failed with NOT_SENT, no
byte of it has been written to an open socket, and none is written however the run goes on. -/
theorem notSent_truthful {cfg : PoolConfig} {es es' : List Event} {p p' : Pool} {r : RequestId}
    {e : FlameDBException} (hrun : Machine.run (step cfg) {} es = some p)
    (hfail : (p.requests r).caller = .failed e) (hstatus : e.executionStatus = .notSent)
    (hrest : Machine.run (step cfg) p es' = some p') :
    ∀ x ∈ p'.wire, x.2.1 ≠ r := by
  have hinv := (inv_init.run hrun).run hrest
  exact ((hinv.requests r).verdict e (run_failed hfail hrest) hstatus).1

/-- The worker has looked at the flag and is about to send when the call is cancelled. -/
def sampleRace : List Event :=
  [.call 0 ["WRITE hits 1"], .acquire 0 0, .dispatch 0, .start 0 false, .dialEnter 0,
    .authenticate 0,
    .dialCommit 0, .check 0 false none, .cancel 0, .handlerMark 0, .handlerFinish 0,
    .cancelledReturn 0 true]

/-- The caller reports NOT_SENT; the worker goes on, finds the socket closed and gives up. -/
theorem notSent_truthful_sampleRace : ∃ p p' e,
    Machine.run (step ⟨[], [0]⟩) {} sampleRace = some p ∧
    (p.requests 0).caller = .failed e ∧ e.executionStatus = .notSent ∧ e.mutating = true ∧
    Machine.run (step ⟨[], [0]⟩) p [.markSent 0, .write 0 5, .caught 0, .finish 0, .resume 0] =
      some p' ∧
    (p'.requests 0).worker = .done ∧ ∀ x ∈ p'.wire, x.2.1 ≠ 0 :=
  ⟨_, _, _, rfl, rfl, rfl, rfl, rfl, rfl,
    @notSent_truthful ⟨[], [0]⟩ sampleRace [.markSent 0, .write 0 5, .caught 0,
      .finish 0, .resume 0]
      _ _ 0 _ rfl rfl rfl rfl⟩

end FlameDB.Client
