import FlameDB.Client.CommandPool
import FlameDB.Client.JournalFormat
import FlameDB.KV.OrdMap
import FlameDB.Machine

/-!
# The write journal of the buffered client

`record` appends an entry to an open file; full or old files are sealed by renaming them to pending.
One sender claims a pending file by renaming it to in-flight, sends its entries as one batch and
renames the file according to what it learns.  A new process turns what it finds in flight into
uncertain files and rebuilds pending files from the complete frames of open ones.

The model has one event for each file operation, so a crash, which is an event like any other, may
come between any two of them; what was written before it stays.  The appender works under the
journal's lock, the sender does not, and their events interleave.

The last four fields of the state only record the history: where each entry was written, which
entries were admitted, which were fully acknowledged, and what was sent.
-/

namespace FlameDB.Client

open Go KV

/-- The extensions of journal files.  `.open` and `.partial` are `opened` and `partialAck`. -/
inductive Extension where
  | opened | pending | inflight | done | uncertain | partialAck | damaged | recovered | rebuild
  | result
  deriving DecidableEq

/-- A number for each extension. -/
def Extension.rank : Extension → ℕ
  | .opened => 0
  | .pending => 1
  | .inflight => 2
  | .done => 3
  | .uncertain => 4
  | .partialAck => 5
  | .damaged => 6
  | .recovered => 7
  | .rebuild => 8
  | .result => 9

lemma Extension.rank_injective : Function.Injective Extension.rank := by
  intro a b h
  cases a <;> cases b <;> simp_all [Extension.rank]

instance : LinearOrder Extension := LinearOrder.lift' Extension.rank Extension.rank_injective

/-- A file is named by its place in the order of creation and an extension. -/
abbrev FileName := ℕ ×ₗ Extension

def fileName (stem : ℕ) (extension : Extension) : FileName := toLex (stem, extension)

/-- The files of the journal with their bytes, in the order of their names. -/
abbrev Directory := OrdMap FileName Bytes

/-- `move`: an atomic rename of a file that must exist. -/
def moveFile (d : Directory) (stem : ℕ) (a b : Extension) : Option Directory :=
  (d.get? (fileName stem a)).map fun file =>
    (d.erase (fileName stem a)).set (fileName stem b) file

/-- The first 256 pending files in name order. -/
def scanPending (d : Directory) : List ℕ :=
  ((d.entries.filter fun e => (ofLex e.1).2 = .pending).map fun e => (ofLex e.1).1).take 256

/-! ## The processes -/

/-- What the server answers to a batch. -/
structure BatchAck where
  ok : Bool
  accepted : ℕ
  failed : ℕ
  errors : List ℕ
  deriving DecidableEq

/-- The sender's check of an answer to `size` items. -/
def BatchAck.valid (r : BatchAck) (size : ℕ) : Bool :=
  r.accepted + r.failed = size && r.errors.length = r.failed &&
    r.errors.eraseDups.length = r.failed &&
    r.errors.all (· < size) && r.ok == (r.failed == 0)

/-- How a call to `writeBatch` ends: with an answer, or with an exception whose diagnostic, if it
has one, carries an execution status. -/
inductive Outcome where
  | answer (r : BatchAck)
  | exception (status : Option ExecutionStatus)
  deriving DecidableEq

/-- The server has accepted every item. -/
def Outcome.fullAck (size : ℕ) : Outcome → Bool
  | .answer r => r.valid size && r.failed == 0
  | .exception _ => false

/-- The SDK says that nothing was sent. -/
def Outcome.notSent : Outcome → Bool
  | .answer _ => false
  | .exception status => status = some .notSent

/-- Whether bytes of the batch may have reached the server: an answer shows it, and a diagnostic
that says NOT_SENT is truthful. -/
def Outcome.mayBe (reached : Bool) : Outcome → Bool
  | .answer _ => reached
  | .exception status => !(status = some .notSent && reached)

variable (W : Type)

/-- `append`, under the journal's lock. -/
inductive Appender where
  | idle
  /-- the entry is admissible and the file is full -/
  | sealing (w : W)
  | opening (w : W)
  | writing (w : W) (rest : Bytes)

/-- The sender's loop. -/
inductive Sender where
  | idle
  /-- the file is in flight, the batch not yet sent -/
  | claimed (stem : ℕ) (items : List W)
  | answered (stem : ℕ) (items : List W) (outcome : Outcome)
  /-- the partial result is saved -/
  | saved (stem : ℕ)
  /-- in the handler of an exception; `safe` when it says that nothing was sent -/
  | failed (stem : ℕ) (safe : Bool)
  /-- acknowledged, the file not yet deleted -/
  | confirmed (stem : ℕ)
  | stopped

/-- The journal after its start: the counters, the appending side and the sender. -/
structure Running where
  accepting : Bool := true
  stream : Option ℕ := none
  count : ℕ := 0
  bytes : ℕ := 0
  retainedBytes : ℕ := 0
  appender : Appender W := .idle
  sender : Sender W := .idle
  pendingCache : List ℕ := []

/-- The rebuilding of one open file. -/
inductive Recovery where
  | next
  /-- the open file has become the recovered one -/
  | rebuild (stem : ℕ) (entries : List W)
  | writing (stem : ℕ) (entries : List W) (rest : Bytes)

/-- The life of a process; a crash can stop it at any point. -/
inductive Process where
  | stopped
  /-- the constructor, with the files still to be looked at -/
  | starting (retainedBytes : ℕ) (todo : List FileName) (recovery : Recovery W)
  | running (r : Running W)

/-- One call of `writeBatch`; `reached` when bytes of it may have reached the server. -/
structure Send where
  stem : ℕ
  items : List W
  reached : Bool

/-- The directory, the process on it, and the history that the results speak about. -/
structure Journal where
  directory : Directory := ∅
  process : Process W := .stopped
  placed : List (W × ℕ) := []
  admitted : List W := []
  acked : List W := []
  sends : List (Send W) := []

/-- The configured limits. -/
structure JournalConfig where
  batchSize : ℕ
  maxJournalBytes : ℕ

/-! ## The file operations

Every operation on a file is a step of its own, so a crash may come between any two. -/

/-- The steps of the journal; each is one effect on the disk or the network. -/
inductive JournalEvent where
  | start
  | recover
  | rebuildOpen
  | rebuildWrite (n : ℕ)
  | rebuildDone
  | startDone
  /-- `append` passes its checks -/
  | appendBegin (w : W)
  | appendSeal
  | appendOpen (stem : ℕ)
  | appendWrite (n : ℕ)
  | appendDone
  /-- a file operation of `append` fails; `closed` when sealing had closed the stream -/
  | appendFail (closed : Bool)
  /-- the file is old enough, or admission stops -/
  | flush
  | flushFail
  | stopAdmission
  | pick
  | send (outcome : Outcome) (reached : Bool)
  /-- the sender goes on; `io` when the file operation it tries fails -/
  | settle (io : Bool) (saved : Bytes)
  /-- the sender is cancelled or dies of a file operation -/
  | stopSender
  /-- the process ends, in order or not, or the constructor fails -/
  | crash

variable {W}

/-- `seal` without its failures. -/
def sealFile (d : Directory) (r : Running W) : Option (Directory × Running W) :=
  match r.stream with
  | none => some (d, r)
  | some stem => (moveFile d stem .opened .pending).map fun d =>
      (d, { r with stream := none, count := 0, bytes := 0 })

/-- The file must be sealed before another entry of this size. -/
def isFull (cfg : JournalConfig) (r : Running W) (size : ℕ) : Bool :=
  cfg.batchSize ≤ r.count || (0 < r.bytes && maxBatchBytes < r.bytes + size + 8)

/-- `oldestPending`: the first cached path, or the first of a new scan. -/
def oldestPending (d : Directory) (r : Running W) : List ℕ :=
  if r.pendingCache = [] then scanPending d else r.pendingCache

section Steps

variable (J : JsonCodec W)

/-- One turn of the constructor's loop over the files it found. -/
def recoverFile (d : Directory) (retained : ℕ) (todo : List FileName) (name : FileName) :
    Option (Directory × Process W) :=
  let stem := (ofLex name).1
  match (ofLex name).2 with
  | .inflight => (moveFile d stem .inflight .uncertain).map fun d =>
      (d, .starting retained todo .next)
  | .opened =>
      (d.get? name).bind fun file =>
        match readFile J.decode true file with
        | .error _ => (moveFile d stem .opened .damaged).map fun d =>
            (d, .starting retained todo .next)
        | .ok entries => (moveFile d stem .opened .recovered).map fun d =>
            (d, .starting retained todo
              (if entries = [] then .next else .rebuild stem entries))
  | .done => (d.get? name).map fun file =>
      (d.erase name, .starting (retained - file.length) todo .next)
  | _ => some (d, .starting retained todo .next)

/-- The sender claims the oldest pending file, or sets it aside when it cannot be read. -/
def pickFile (d : Directory) (r : Running W) : Option (Directory × Running W) :=
  let cache := oldestPending d r
  match cache with
  | [] => some (d, { r with pendingCache := [] })
  | stem :: _ =>
      let r := { r with pendingCache := cache.erase stem }
      (d.get? (fileName stem .pending)).bind fun file =>
        match readFile J.decode false file with
        | .error _ => (moveFile d stem .pending .damaged).map fun d => (d, r)
        | .ok items => (moveFile d stem .pending .inflight).map fun d =>
            (d, { r with sender := .claimed stem items })

/-- What the sender does next, once the call has ended. -/
def settleFile (io : Bool) (saved : Bytes) (d : Directory) (r : Running W) :
    Option (Directory × Running W) :=
  match r.sender with
  | .answered stem items (.answer ack) =>
      if io then some (d, { r with sender := .failed stem false })
      else if !ack.valid items.length then
        (moveFile d stem .inflight .uncertain).map fun d => (d, { r with sender := .idle })
      else if ack.failed ≠ 0 then
        some (d.set (fileName stem .result) saved,
          { r with sender := .saved stem, retainedBytes := r.retainedBytes + saved.length })
      else (moveFile d stem .inflight .done).map fun d => (d, { r with sender := .confirmed stem })
  | .answered stem _ (.exception status) =>
      some (d, { r with sender := .failed stem (status = some .notSent) })
  | .saved stem =>
      if io then some (d, { r with sender := .failed stem false })
      else (moveFile d stem .inflight .partialAck).map fun d => (d, { r with sender := .idle })
  | .failed stem safe =>
      if (d.get? (fileName stem .inflight)).isNone then some (d, { r with sender := .idle })
      else if io then some (d, { r with sender := .stopped })
      else if safe then
        (moveFile d stem .inflight .pending).map fun d =>
          (d, { r with sender := .idle, pendingCache := [] })
      else (moveFile d stem .inflight .uncertain).map fun d => (d, { r with sender := .idle })
  | .confirmed stem =>
      if io then some (d, { r with sender := .idle })
      else (d.get? (fileName stem .done)).map fun file =>
        (d.erase (fileName stem .done),
          { r with sender := .idle, retainedBytes := r.retainedBytes - file.length })
  | _ => none

/-- One step of the journal, `none` when the process is not at that point. -/
def journalStep [DecidableEq W] (cfg : JournalConfig) (s : Journal W) :
    JournalEvent W → Option (Journal W)
  | .start =>
      match s.process with
      | .stopped => some { s with
          process := .starting (s.directory.entries.map fun e => e.2.length).sum
            (s.directory.entries.map Prod.fst) .next }
      | _ => none
  | .recover =>
      match s.process with
      | .starting retained (name :: todo) .next =>
          (recoverFile J s.directory retained todo name).map fun (d, p) =>
            { s with directory := d, process := p }
      | _ => none
  | .rebuildOpen =>
      match s.process with
      | .starting retained todo (.rebuild stem entries) => some { s with
          directory := s.directory.set (fileName stem .rebuild) []
          process := .starting retained todo (.writing stem entries (frames J entries)) }
      | _ => none
  | .rebuildWrite n =>
      match s.process with
      | .starting retained todo (.writing stem entries rest) =>
          (s.directory.get? (fileName stem .rebuild)).map fun file => { s with
            directory := s.directory.set (fileName stem .rebuild) (file ++ rest.take n)
            process := .starting retained todo (.writing stem entries (rest.drop n)) }
      | _ => none
  | .rebuildDone =>
      match s.process with
      | .starting retained todo (.writing stem entries []) =>
          (moveFile s.directory stem .rebuild .pending).map fun d => { s with
            directory := d
            process := .starting (retained + (frames J entries).length) todo .next }
      | _ => none
  | .startDone =>
      match s.process with
      | .starting retained [] .next => some { s with
          process := .running { retainedBytes := retained } }
      | _ => none
  | .appendBegin w =>
      match s.process with
      | .running r =>
          let size := (J.encode w).length
          match r.appender with
          | .idle =>
              -- the id of an entry is new, so the entry is
              if J.admits w ∧ r.accepting ∧ size ≤ maxEntryBytes ∧
                  r.retainedBytes + size + 8 ≤ cfg.maxJournalBytes ∧ w ∉ s.placed.map Prod.fst then
                some { s with process := .running { r with
                  appender := if isFull cfg r size then .sealing w else .opening w } }
              else none
          | _ => none
      | _ => none
  | .appendSeal =>
      match s.process with
      | .running r =>
          match r.appender with
          | .sealing w => (sealFile s.directory r).map fun (d, r) => { s with
              directory := d, process := .running { r with appender := .opening w } }
          | _ => none
      | _ => none
  | .appendOpen stem =>
      match s.process with
      | .running r =>
          match r.appender with
          | .opening w =>
              match r.stream with
              | some stem => some { s with
                  process := .running { r with
                    appender := .writing w (writeFrame (J.encode w)) }
                  placed := (w, stem) :: s.placed }
              | none =>
                  -- the path is random, so neither a file nor an earlier batch has it
                  if (s.directory.entries.all fun e => (ofLex e.1).1 ≠ stem) ∧
                      s.sends.all fun x => x.stem ≠ stem then some { s with
                    directory := s.directory.set (fileName stem .opened) []
                    process := .running { r with
                      stream := some stem, appender := .writing w (writeFrame (J.encode w)) }
                    placed := (w, stem) :: s.placed }
                  else none
          | _ => none
      | _ => none
  | .appendWrite n =>
      match s.process with
      | .running r =>
          match r.appender, r.stream with
          | .writing w rest, some stem =>
              (s.directory.get? (fileName stem .opened)).map fun file => { s with
                directory := s.directory.set (fileName stem .opened) (file ++ rest.take n)
                process := .running { r with appender := .writing w (rest.drop n) } }
          | _, _ => none
      | _ => none
  | .appendDone =>
      match s.process with
      | .running r =>
          match r.appender with
          | .writing w [] =>
              let size := (J.encode w).length + 8
              some { s with
                process := .running { r with
                  appender := .idle, retainedBytes := r.retainedBytes + size
                  count := r.count + 1, bytes := r.bytes + size }
                admitted := w :: s.admitted }
          | _ => none
      | _ => none
  | .appendFail closed =>
      match s.process with
      | .running r =>
          match r.appender with
          | .idle => none
          | .writing _ _ => some { s with
              process := .running { r with appender := .idle, accepting := false } }
          | _ => some { s with
              process := .running { r with
                appender := .idle, stream := if closed then none else r.stream } }
      | _ => none
  | .flush =>
      match s.process with
      | .running r =>
          match r.appender with
          | .idle => (sealFile s.directory r).map fun (d, r) => { s with
              directory := d, process := .running r }
          | _ => none
      | _ => none
  | .flushFail =>
      match s.process with
      | .running r =>
          match r.appender with
          | .idle => some { s with process := .running { r with stream := none } }
          | _ => none
      | _ => none
  | .stopAdmission =>
      match s.process with
      | .running r =>
          match r.appender with
          | .idle => some { s with process := .running { r with accepting := false } }
          | _ => none
      | _ => none
  | .pick =>
      match s.process with
      | .running r =>
          match r.sender with
          | .idle => (pickFile J s.directory r).map fun (d, r) => { s with
              directory := d, process := .running r }
          | _ => none
      | _ => none
  | .send outcome reached =>
      match s.process with
      | .running r =>
          match r.sender with
          | .claimed stem items =>
              if outcome.mayBe reached then some { s with
                process := .running { r with sender := .answered stem items outcome }
                acked := if outcome.fullAck items.length then items ++ s.acked else s.acked
                sends := s.sends ++ [⟨stem, items, reached⟩] }
              else none
          | _ => none
      | _ => none
  | .settle io saved =>
      match s.process with
      | .running r => (settleFile io saved s.directory r).map fun (d, r) => { s with
          directory := d, process := .running r }
      | _ => none
  | .stopSender =>
      match s.process with
      | .running r =>
          match r.sender with
          | .idle => some { s with process := .running { r with sender := .stopped } }
          | _ => none
      | _ => none
  | .crash => some { s with process := .stopped }

end Steps

end FlameDB.Client
