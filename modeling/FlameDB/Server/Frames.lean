import FlameDB.Cluster.Outbox
import FlameDB.Server.Session

/-!
# Replication frames

`sendReplicationBatch` cuts the records of a batch into frames by their size, sends a frame of one
record as the record's own line and a larger one as a `REPL_BATCH` line with the records between
unit separators, and then tells the callers and clears the outbox, frame by frame.  The other node
trims what it reads and splits it again.

* `frames` — the records of each frame, with `sendReplicationBatch_eq`: what is sent, told and
  deleted, one frame after the other.
* `IsReplicaLine` — the lines `replicaLine` makes of a mutation the primary has parsed.  They are
  trimmed, hold no unit separator and do not look like a frame.
* `frames_carry_records` — on such lines the receiver's reading undoes the framing.
-/

namespace FlameDB

open Go KV

/-- Separates the lines of a frame. -/
def replicationBatchSeparator : UInt8 := 0x1f

/-- The most bytes of a frame with more than one record. -/
def maxFrameBytes : ℕ := 8 * 2 ^ 20

/-- The size loop of `sendReplicationBatch`: the first record, not the first of all, that would make
the frame too large. -/
def cutLoop : ℕ → ℕ → List ReplicationRecord → Option ℕ
  | _, _, [] => none
  | i, size, record :: rest =>
      if 0 < i ∧ maxFrameBytes < size + record.query.length + 1 then some i
      else cutLoop (i + 1) (size + record.query.length + 1) rest

/-- Where a batch is cut so that its first frame is short enough. -/
def frameCut (records : List ReplicationRecord) : Option ℕ := cutLoop 0 0 records

/-- `strings.Join`. -/
def joinBytes (sep : Bytes) (parts : List Bytes) : Bytes := sep.intercalate parts

/-- The line of a frame: a single query goes as it is. -/
def frameLine (records : List ReplicationRecord) : Bytes :=
  match records.map ReplicationRecord.query with
  | [line] => line
  | queries => bs "REPL_BATCH " ++ joinBytes [replicationBatchSeparator] queries

/-! ## Sending a batch -/

/-- What sending a batch does: frames, acknowledgements and deletions. -/
inductive SendEffect where
  | frame (line : Bytes)
  | ack (call : ℕ) (nodeID : Bytes)
  | deleteBatch (keys : List Bytes)
  deriving DecidableEq

lemma lt_of_cutLoop {records : List ReplicationRecord} {i size j : ℕ}
    (h : cutLoop i size records = some j) : 0 < j ∧ j < i + records.length := by
  induction records generalizing i size with
  | nil => simp [cutLoop] at h
  | cons record rest ih =>
      unfold cutLoop at h
      split_ifs at h with hcut
      · obtain rfl : i = j := by simpa using h
        exact ⟨hcut.1, by simp⟩
      · obtain ⟨hpos, hlt⟩ := ih h
        refine ⟨hpos, ?_⟩
        simp only [List.length_cons]
        omega

lemma frameCut_lt {records : List ReplicationRecord} {i : ℕ} (h : frameCut records = some i) :
    0 < i ∧ i < records.length := by
  simpa using lt_of_cutLoop h

section Sending

variable (outbox : Bool) (node : Node) (accepted : ℕ → Bool)

/-- The part of `sendReplicationBatch` behind its size loop; `accepted` is the result of
`sendReplicationLineWithRetry`. -/
def sendFrame (accepted : Bool) (records : List ReplicationRecord) : List SendEffect :=
  .frame (frameLine records) ::
    if accepted then
      records.filterMap (fun record => record.ack.map fun call => .ack call node.id) ++
        if outbox then [.deleteBatch ((records.map (·.outboxKey)).filter (· ≠ []))] else []
    else []

/-- `sendReplicationBatch` with the number of frames sent before; `accepted` gives the outcome of
each frame. -/
def sendReplicationBatch (n : ℕ) (records : List ReplicationRecord) : ℕ × List SendEffect :=
  if records = [] then (n, [])
  else
    match h : frameCut records with
    | some i =>
        let (n, first) := sendReplicationBatch n (records.take i)
        let (n, second) := sendReplicationBatch n (records.drop i)
        (n, first ++ second)
    | none => (n + 1, sendFrame outbox node (accepted n) records)
termination_by records.length
decreasing_by
  all_goals
    have := frameCut_lt h
    simp only [List.length_take, List.length_drop]
    omega

end Sending

/-! ## The frames of a batch

A batch is cut until every frame is short enough or holds a single record. -/

/-- The records of each frame. -/
def frames (records : List ReplicationRecord) : List (List ReplicationRecord) :=
  if records = [] then []
  else
    match _h : frameCut records with
    | some i => frames (records.take i) ++ frames (records.drop i)
    | none => [records]
termination_by records.length
decreasing_by
  all_goals
    have := frameCut_lt _h
    simp only [List.length_take, List.length_drop]
    omega

lemma frames_cut {records : List ReplicationRecord} {i : ℕ} (h : frameCut records = some i) :
    frames records = frames (records.take i) ++ frames (records.drop i) := by
  have hne : records ≠ [] := List.ne_nil_of_length_pos (by have := frameCut_lt h; omega)
  rw [frames, if_neg hne]
  split
  · rename_i j hj
    obtain rfl : j = i := Option.some.inj (hj.symm.trans h)
    rfl
  · rename_i hnone
    simp [hnone] at h

lemma frames_whole {records : List ReplicationRecord} (hne : records ≠ [])
    (h : frameCut records = none) : frames records = [records] := by
  rw [frames, if_neg hne]
  split
  · rename_i j hj
    simp [hj] at h
  · rfl

/-- The induction of `sendReplicationBatch`. -/
lemma batch_induction {P : List ReplicationRecord → Prop} (hnil : P [])
    (hcut : ∀ records i, frameCut records = some i → P (records.take i) → P (records.drop i) →
      P records)
    (hwhole : ∀ records, records ≠ [] → frameCut records = none → P records)
    (records : List ReplicationRecord) : P records := by
  induction hlen : records.length using Nat.strong_induction_on generalizing records with
  | _ m ih =>
      subst hlen
      by_cases hne : records = []
      · rw [hne]
        exact hnil
      cases hc : frameCut records with
      | none => exact hwhole records hne hc
      | some i =>
          have hi := frameCut_lt hc
          refine hcut records i hc (ih _ ?_ _ rfl) (ih _ ?_ _ rfl)
          · rw [List.length_take]
            omega
          · rw [List.length_drop]
            omega

lemma frames_flatten (records : List ReplicationRecord) : (frames records).flatten = records := by
  induction records using batch_induction with
  | hnil => simp [frames]
  | hcut records i hc ih₁ ih₂ =>
      rw [frames_cut hc, List.flatten_append, ih₁, ih₂, List.take_append_drop]
  | hwhole records hne hc => simp [frames_whole hne hc]

lemma of_mem_frames {records f : List ReplicationRecord} (h : f ∈ frames records) :
    f ≠ [] ∧ frameCut f = none := by
  induction records using batch_induction with
  | hnil => simp [frames] at h
  | hcut records i hc ih₁ ih₂ =>
      rw [frames_cut hc] at h
      rcases List.mem_append.mp h with h | h
      · exact ih₁ h
      · exact ih₂ h
  | hwhole records hne hc =>
      rw [frames_whole hne hc] at h
      obtain rfl := List.mem_singleton.mp h
      exact ⟨hne, hc⟩

/-- **A batch is sent frame by frame.** -/
theorem sendReplicationBatch_eq (outbox : Bool) (node : Node) (accepted : ℕ → Bool) (n : ℕ)
    (records : List ReplicationRecord) :
    sendReplicationBatch outbox node accepted n records =
      (n + (frames records).length, ((frames records).zipIdx n).flatMap fun p =>
        sendFrame outbox node (accepted p.2) p.1) := by
  induction records using batch_induction generalizing n with
  | hnil => simp [sendReplicationBatch, frames]
  | hcut records i hc ih₁ ih₂ =>
      have hne : records ≠ [] := List.ne_nil_of_length_pos (by have := frameCut_lt hc; omega)
      rw [sendReplicationBatch, if_neg hne, frames_cut hc]
      split
      · rename_i j hj
        obtain rfl : j = i := Option.some.inj (hj.symm.trans hc)
        rw [ih₁]
        dsimp only
        rw [ih₂, List.zipIdx_append, List.flatMap_append, List.length_append, Nat.add_assoc]
      · rename_i hnone
        simp [hnone] at hc
  | hwhole records hne hc =>
      rw [sendReplicationBatch, if_neg hne, frames_whole hne hc]
      split
      · rename_i j hj
        simp [hj] at hc
      · simp

/-- What the size loop has counted at its end. -/
def frameSize (records : List ReplicationRecord) : ℕ :=
  (records.map fun record => record.query.length + 1).sum

lemma cutLoop_none_size {records : List ReplicationRecord} (hne : records ≠ []) {i size : ℕ}
    (hi : 0 < i) (h : cutLoop i size records = none) : size + frameSize records ≤
      maxFrameBytes := by
  induction records generalizing i size with
  | nil => exact absurd rfl hne
  | cons record rest ih =>
      unfold cutLoop at h
      split_ifs at h with hcut
      have hle : size + record.query.length + 1 ≤ maxFrameBytes := by
        by_contra hlt
        exact hcut ⟨hi, by omega⟩
      by_cases hrest : rest = []
      · simpa [hrest, frameSize, Nat.add_assoc] using hle
      · have := ih hrest (Nat.succ_pos i) h
        simp only [frameSize, List.map_cons, List.sum_cons] at this ⊢
        omega

/-- **A frame of several records is within the limit.** -/
lemma frameSize_le {records : List ReplicationRecord} (hcut : frameCut records = none)
    (hlen : 1 < records.length) : frameSize records ≤ maxFrameBytes := by
  match records with
  | record :: next :: rest =>
      have htail : cutLoop 1 (record.query.length + 1) (next :: rest) = none := by
        simpa [frameCut, cutLoop] using hcut
      have := cutLoop_none_size (List.cons_ne_nil _ _) Nat.one_pos htail
      simp only [frameSize, List.map_cons, List.sum_cons] at this ⊢
      omega

lemma length_joinBytes (sep : UInt8) (parts : List Bytes) :
    (joinBytes [sep] parts).length ≤ (parts.map fun part => part.length + 1).sum := by
  unfold joinBytes
  induction parts with
  | nil => simp
  | cons part parts ih =>
      cases parts with
      | nil => simp
      | cons next parts =>
          rw [List.intercalate_cons_cons]
          simp only [List.map_cons, List.sum_cons, List.length_append] at ih ⊢
          simp only [List.length_cons, List.length_nil]
          omega

/-! ## Reading a frame

No replica line contains the separator, so splitting gives back the lines. -/

/-- The lines a node reads from a line of its input, as the loop of `handleConn` does. -/
def receivedLines (token : Bytes) : List Bytes :=
  let line := trimSpace token
  if frameHead <+: line then split unitSep (trimSpace (line.drop frameHead.length)) else [line]

/-- A line `replicaLine` has made: of a trimmed line that was parsed as a mutation, and of the query
`p` the node executed for it. -/
def IsReplicaLine (text : Bytes) : Prop :=
  ∃ now token q p, parse now (trimSpace token) = .ok q ∧ q.IsMutation ∧ p.type = q.type ∧
    IsOperationID p.operationID ∧ text = replicaLine (trimSpace token) p

/-- A line of input that a node executes and replicates. -/
lemma isReplicaLine_assigned {now clock : Int64} {token op : Bytes} {q : Query} {s : Executor}
    (hq : parse now (trimSpace token) = .ok q) (hmut : q.IsMutation) (hop : IsOperationID op) :
    IsReplicaLine (replicaLine (trimSpace token) (assigned clock s op q)) := by
  obtain ⟨ts, hp⟩ := assigned_eq clock s op q
  refine ⟨now, token, q, _, hq, hmut, ?_, ?_, rfl⟩
  · rw [hp]
  · rw [hp]
    exact hop

/-- A text with the head of a frame in front of a blank is no command. -/
lemma not_frameHead_prefix {now : Int64} {line cmd : Bytes} {q : Query} {c : Command}
    {args : List Bytes} (h : ReadAs now line q c cmd args) (t : Bytes) :
    ¬ frameHead <+: line ++ byte ' ' :: t := by
  rintro ⟨rest, hrest⟩
  have hword : Closed (bs "REPL_BATCH") ∧ tokenize (bs "REPL_BATCH") = [bs "REPL_BATCH"] :=
    tokenize_plain (by decide +kernel)
  have hhead : frameHead ++ rest = bs "REPL_BATCH" ++ byte ' ' :: rest := by
    rw [show frameHead = bs "REPL_BATCH" ++ [byte ' '] by decide, List.append_assoc]
    rfl
  -- the first token of the line would be the word of a frame
  have hfirst : ∃ ts, tokenize (cutOperationID line).2 = bs "REPL_BATCH" :: ts := by
    rcases List.append_eq_append_iff.mp (hhead.symm.trans hrest) with ⟨a, hline,
      ha⟩ | ⟨a, hline, ha⟩
    · cases a with
      | nil =>
          rw [List.append_nil] at hline
          exact ⟨[], by rw [hline]; decide +kernel⟩
      | cons x a =>
          obtain ⟨rfl, -⟩ := List.cons.inj ha
          obtain ⟨op, rest, hrest, hcut⟩ := cutOperationID_behind a
          rw [hline, hcut]
          rcases hrest with rfl | ⟨s, rfl⟩
          · exact ⟨[], by rw [List.append_nil, hword.2]⟩
          · exact ⟨tokenize s, by rw [tokenize_append hword.1, hword.2]; rfl⟩
    · cases a with
      | nil =>
          rw [List.append_nil] at hline
          exact ⟨[], by rw [← hline]; decide +kernel⟩
      | cons x a =>
          obtain ⟨rfl, -⟩ := List.cons.inj ha
          have hblank : byte ' ' ∈ bs "REPL_BATCH" := by rw [hline]; simp
          exact absurd hblank (by decide)
  obtain ⟨ts, hts⟩ := hfirst
  obtain ⟨-, -, htok, -⟩ := prepare_eq_ok_iff.mp h.prepared
  obtain ⟨rfl, -⟩ := List.cons.inj (htok.symm.trans hts)
  have hnone : commandOf (bs "REPL_BATCH") = none := by decide +kernel
  exact absurd h.command (by simp [hnone])

/-- **A replica line can stand in a frame and alone.** -/
structure Framed (text : Bytes) : Prop where
  ne_nil : text ≠ []
  trimmed : Trimmed text
  unitSep_notMem : unitSep ∉ text
  not_frame : ¬ frameHead <+: text

/-- Replica lines pass through a frame unchanged. -/
lemma IsReplicaLine.framed {text : Bytes} (h : IsReplicaLine text) : Framed text := by
  obtain ⟨now, token, q, p, hq, hmut, -, hop, rfl⟩ := h
  have htype : q.type ∉ [QueryType.rank, .score, .around, .leaderboardCount] := by
    rcases hmut with h | h | h <;> simp [h]
  obtain ⟨c, cmd, args, hread⟩ := exists_readAs hq htype
  have hline := trimmed_trimSpace token
  have hne : trimSpace token ≠ [] := by
    intro hnil
    have htok := (prepare_eq_ok_iff.mp hread.prepared).2.2.1
    rw [hnil] at htok
    exact absurd htok (by rw [show tokenize (cutOperationID []).2 = [] by decide +kernel]; simp)
  have hopne : p.operationID ≠ [] := List.ne_nil_of_length_pos (by rw [hop.1]; omega)
  have hlast : ∀ w ∈ spaces, ¬ w <:+ p.operationID := by
    have hends : ∀ w ∈ spaces, ∃ b ∈ w, ¬ IsHexDigit b := by decide +kernel
    intro w hw hsuf
    obtain ⟨b, hb, hhex⟩ := hends w hw
    exact hhex (hop.2 b (hsuf.mem hb))
  have hfront : replicaLine (trimSpace token) p =
      trimSpace token ++ byte ' ' :: (replicaText p ++ bs " __op=" ++ p.operationID) := by
    rw [replicaLine_eq]
    simp
  have hback : replicaLine (trimSpace token) p =
      (trimSpace token ++ byte ' ' :: replicaText p ++ bs " __op") ++ byte '=' ::
        p.operationID := by
    rw [replicaLine_eq, show bs " __op=" = bs " __op" ++ [byte '='] by decide]
    simp
  refine ⟨?_, ?_, ?_, ?_⟩
  · rw [hfront]
    simp
  · intro w hw
    constructor
    · rw [hfront]
      exact not_space_prefix_append hne (fun w hw => (hline w hw).1) (by decide) _ w hw
    · rw [hback]
      exact not_space_suffix_append hopne hlast (by decide) _ w hw
  · exact fun hmem => clean_replicaLine hread.clean hop _ hmem (by decide)
  · rw [hfront]
    exact not_frameHead_prefix hread _

lemma frameLine_several {f : List ReplicationRecord} (h : 1 < f.length) :
    frameLine f = frameHead ++ joinBytes [unitSep] (f.map ReplicationRecord.query) := by
  match f with
  | _ :: _ :: _ => rfl

/-- The receiver takes a frame apart as it was put together. -/
lemma receivedLines_frameLine {f : List ReplicationRecord} (hne : f ≠ [])
    (h : ∀ record ∈ f, Framed record.query) :
    receivedLines (frameLine f) = f.map ReplicationRecord.query ∧
      trimSpace (frameLine f) = frameLine f := by
  by_cases hlen : 1 < f.length
  · have hmap : f.map ReplicationRecord.query ≠ [] := by simpa using hne
    obtain ⟨htrim, hjoin⟩ := @Trimmed.intercalate unitSep (by decide) _ hmap
      (List.forall_mem_map.mpr fun record hr => ⟨(h record hr).trimmed, (h record hr).ne_nil⟩)
    have hwhole : trimSpace (frameLine f) = frameLine f := by
      refine trimSpace_of_trimmed ?_
      rw [frameLine_several hlen, show frameHead = bs "REPL_BATCH" ++ [byte ' '] by decide,
        List.append_assoc]
      have hhead : Trimmed (bs "REPL_BATCH") := by decide +kernel
      exact hhead.append htrim (by decide) hjoin (by decide)
    refine ⟨?_, hwhole⟩
    rw [receivedLines, hwhole, frameLine_several hlen, if_pos (List.prefix_append _ _),
      List.drop_left,
      joinBytes, trimSpace_of_trimmed htrim]
    exact split_intercalate hmap (List.forall_mem_map.mpr fun record hr =>
      (h record hr).unitSep_notMem)
  · obtain ⟨record, rfl⟩ : ∃ record, f = [record] := by
      match f with
      | [record] => exact ⟨record, rfl⟩
      | _ :: _ :: _ => simp at hlen
    have hrecord := h record List.mem_cons_self
    have hwhole : trimSpace record.query = record.query := trimSpace_of_trimmed hrecord.trimmed
    refine ⟨?_, hwhole⟩
    simp only [frameLine, List.map_cons, List.map_nil, receivedLines, hwhole]
    exact if_neg hrecord.not_frame

/-! ## Frames carry their records -/

def SendEffect.line? : SendEffect → Option Bytes
  | .frame line => some line
  | _ => none

def SendEffect.ack? : SendEffect → Option (ℕ × Bytes)
  | .ack call nodeID => some (call, nodeID)
  | _ => none

def SendEffect.keys : SendEffect → List Bytes
  | .deleteBatch keys => keys
  | _ => []

/-- What an accepted frame tells the callers, and what it deletes. -/
def acknowledgements (node : Node) (records : List ReplicationRecord) : List (ℕ × Bytes) :=
  records.filterMap fun record => record.ack.map fun call => (call, node.id)

/-- The stored records among `records`. -/
def outboxKeys (records : List ReplicationRecord) : List Bytes :=
  (records.map (·.outboxKey)).filter (· ≠ [])

section Effects

variable (outbox : Bool) (node : Node)

lemma sendFrame_line (ok : Bool) (f : List ReplicationRecord) :
    (sendFrame outbox node ok f).filterMap SendEffect.line? = [frameLine f] := by
  have hacks : (f.filterMap fun record => record.ack.map fun call =>
      SendEffect.ack call node.id).filterMap SendEffect.line? = [] := by
    simp [List.filterMap_filterMap, SendEffect.line?]
  cases ok <;> cases outbox <;> simp [sendFrame, List.filterMap_cons, SendEffect.line?, hacks]

lemma sendFrame_acks (ok : Bool) (f : List ReplicationRecord) :
    (sendFrame outbox node ok f).filterMap SendEffect.ack? =
      if ok then acknowledgements node f else [] := by
  have hacks : (f.filterMap fun record => record.ack.map fun call =>
      SendEffect.ack call node.id).filterMap SendEffect.ack? = acknowledgements node f := by
    rw [List.filterMap_filterMap]
    refine List.filterMap_congr fun record _ => ?_
    cases record.ack <;> rfl
  cases ok <;> cases outbox <;> simp [sendFrame, List.filterMap_cons, SendEffect.ack?, hacks]

lemma sendFrame_keys (ok : Bool) (f : List ReplicationRecord) :
    (sendFrame outbox node ok f).flatMap SendEffect.keys =
      if ok then if outbox then outboxKeys f else [] else [] := by
  have hacks : (f.filterMap fun record => record.ack.map fun call =>
      SendEffect.ack call node.id).flatMap SendEffect.keys = [] := by
    rw [List.flatMap_eq_nil_iff]
    intro effect hmem
    obtain ⟨record, -, hack⟩ := List.mem_filterMap.mp hmem
    obtain ⟨call, -, rfl⟩ := Option.map_eq_some_iff.mp hack
    rfl
  cases ok <;> cases outbox <;> simp [sendFrame, SendEffect.keys, hacks, outboxKeys]

end Effects

/-- The records of the frames that were accepted. -/
def acceptedRecords (accepted : ℕ → Bool) (n : ℕ) (records : List ReplicationRecord) :
    List ReplicationRecord :=
  (((frames records).zipIdx n).filter fun p => accepted p.2).flatMap Prod.fst

lemma acceptedRecords_all {accepted : ℕ → Bool} (h : ∀ k, accepted k = true) (n : ℕ)
    (records : List ReplicationRecord) : acceptedRecords accepted n records = records := by
  rw [acceptedRecords, List.filter_eq_self.mpr fun p _ => h p.2, List.flatMap_def,
    List.zipIdx_map_fst, frames_flatten]

/-- What is collected from the accepted frames is collected from their records. -/
lemma flatMap_accepted {α : Type*} {g : List ReplicationRecord → List α}
    (hg : ∀ fs : List (List ReplicationRecord), g fs.flatten = fs.flatMap g) (accepted : ℕ → Bool)
    (n : ℕ) (records : List ReplicationRecord) :
    (((frames records).zipIdx n).flatMap fun p => if accepted p.2 then g p.1 else []) =
      g (acceptedRecords accepted n records) := by
  have hflat : acceptedRecords accepted n records =
      ((((frames records).zipIdx n).filter fun p => accepted p.2).map Prod.fst).flatten :=
    List.flatMap_def
  rw [hflat, hg, List.flatMap_map]
  induction (frames records).zipIdx n with
  | nil => rfl
  | cons p ps ih =>
      rw [List.flatMap_cons, ih, List.filter_cons]
      split_ifs <;> rfl

/-- What `sendReplicationBatch` makes of a batch. -/
structure CarriesRecords (outbox : Bool) (node : Node) (accepted : ℕ → Bool) (n : ℕ)
    (records : List ReplicationRecord) (effects : List SendEffect) : Prop where
  /-- the receiver reads the queries of the records, in their order -/
  decoded : (effects.filterMap SendEffect.line?).flatMap receivedLines =
    records.map ReplicationRecord.query
  /-- a frame of several records is within the limits of both sides -/
  bounded : ∀ line ∈ effects.filterMap SendEffect.line?, 1 < (receivedLines line).length →
    frameHead <+: line ∧ (line.drop frameHead.length).length ≤ 8 * 2 ^ 20 ∧
      ∀ cfg session, session.internal = true → cfg.shared = false →
        (trimSpace line).length ≤ Conn.lineLimit cfg session
  /-- each record of an accepted frame is acknowledged once, and no other -/
  acked : effects.filterMap SendEffect.ack? =
    acknowledgements node (acceptedRecords accepted n records)
  /-- each of them is deleted once from the outbox -/
  deleted : effects.flatMap SendEffect.keys =
    if outbox then outboxKeys (acceptedRecords accepted n records) else []
  success : (∀ k, accepted k = true) → acceptedRecords accepted n records = records

/-- **Replication frames carry exactly their records.** -/
theorem frames_carry_records (outbox : Bool) (node : Node) (accepted : ℕ → Bool) (n : ℕ)
    (records : List ReplicationRecord) (h : ∀ record ∈ records, IsReplicaLine record.query) :
    CarriesRecords outbox node accepted n records
      (sendReplicationBatch outbox node accepted n records).2 := by
  have hmem : ∀ f ∈ frames records, ∀ record ∈ f, Framed record.query := by
    intro f hf record hr
    refine (h record ?_).framed
    rw [← frames_flatten records]
    exact List.mem_flatten_of_mem hf hr
  have hlines : ((sendReplicationBatch outbox node accepted n records).2).filterMap
    SendEffect.line? =
      (frames records).map frameLine := by
    rw [sendReplicationBatch_eq, List.filterMap_flatMap]
    simp only [sendFrame_line]
    rw [← List.map_eq_flatMap, ← Function.comp_def frameLine Prod.fst, ← List.map_map,
      List.zipIdx_map_fst]
  constructor
  · rw [hlines, List.flatMap_map, List.flatMap_congr fun f hf =>
      (receivedLines_frameLine (of_mem_frames hf).1 (hmem f hf)).1, List.flatMap_def,
      ← List.map_flatten, frames_flatten]
  · intro line hline hlen
    rw [hlines] at hline
    obtain ⟨f, hf, rfl⟩ := List.mem_map.mp hline
    obtain ⟨hread, htrim⟩ := receivedLines_frameLine (of_mem_frames hf).1 (hmem f hf)
    rw [hread, List.length_map] at hlen
    have hjoin : (joinBytes [unitSep] (f.map ReplicationRecord.query)).length ≤ 8 * 2 ^ 20 := by
      refine (length_joinBytes unitSep _).trans ?_
      rw [List.map_map]
      exact frameSize_le (of_mem_frames hf).2 hlen
    rw [htrim, frameLine_several hlen, List.drop_left]
    refine ⟨List.prefix_append _ _, hjoin, fun cfg session hinternal hshared => ?_⟩
    have hhead : frameHead.length = 11 := by decide
    rw [Conn.lineLimit, if_pos (by simp [hinternal, hshared]), List.length_append, hhead]
    omega
  · rw [sendReplicationBatch_eq, List.filterMap_flatMap]
    simp only [sendFrame_acks]
    refine flatMap_accepted (fun fs => ?_) accepted n records
    rw [List.flatten_eq_flatMap, acknowledgements, List.filterMap_flatMap]
    rfl
  · rw [sendReplicationBatch_eq, List.flatMap_assoc]
    simp only [sendFrame_keys]
    cases outbox with
    | false => simp
    | true =>
        simp only [if_true]
        refine flatMap_accepted (fun fs => ?_) accepted n records
        rw [List.flatten_eq_flatMap, outboxKeys, List.map_flatMap, List.filter_flatMap]
        rfl
  · exact fun hall => acceptedRecords_all hall n records

/-- Two deletions on their way to a node, one of them with a caller that waits. -/
def sampleBatch : List ReplicationRecord :=
  let node : Node := ⟨bs "b", bs "10.0.0.2:7777"⟩
  let query (metric : Bytes) : Bytes :=
    replicaLine (bs "DELETE " ++ metric)
      { type := .delete, metric := metric, operationID := sampleOp }
  [⟨node, query (bs "hits"), recordKey node 1, some 0⟩,
    ⟨node, query (bs "misses"), recordKey node 2, none⟩]

theorem frames_carry_sampleBatch :
    CarriesRecords true ⟨bs "b", bs "10.0.0.2:7777"⟩ (fun _ => true) 0 sampleBatch
      (sendReplicationBatch true ⟨bs "b", bs "10.0.0.2:7777"⟩ (fun _ => true) 0 sampleBatch).2 := by
  refine frames_carry_records _ _ _ _ _ ?_
  have hparse : ∀ metric ∈ [bs "hits", bs "misses"], ∃ q, parse 0 (bs "DELETE " ++ metric) = .ok q ∧
      q.type = .delete ∧ trimSpace (bs "DELETE " ++ metric) = bs "DELETE " ++ metric := by
    intro metric hmem
    simp only [List.mem_cons, List.not_mem_nil, or_false] at hmem
    rcases hmem with rfl | rfl
    · exact ⟨_, rfl, rfl, by decide +kernel⟩
    · exact ⟨_, rfl, rfl, by decide +kernel⟩
  have hop : IsOperationID sampleOp := by decide +kernel
  intro record hmem
  simp only [sampleBatch, List.mem_cons, List.not_mem_nil, or_false] at hmem
  rcases hmem with rfl | rfl
  · obtain ⟨q, hq, htype, htrim⟩ := hparse (bs "hits") (by simp)
    exact ⟨0, bs "DELETE " ++ bs "hits", q,
      _, by rw [htrim]; exact hq, by simp [Query.IsMutation, htype],
      htype.symm, hop, by rw [htrim]⟩
  · obtain ⟨q, hq, htype, htrim⟩ := hparse (bs "misses") (by simp)
    exact ⟨0, bs "DELETE " ++ bs "misses", q,
      _, by rw [htrim]; exact hq, by simp [Query.IsMutation, htype],
      htype.symm, hop, by rw [htrim]⟩

end FlameDB
