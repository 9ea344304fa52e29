import FlameDB.Client.JournalText

/-!
# Journal files read back

The journal appends entries to an open file and seals it when it is full, when it is due and when
admission stops.  A sealed file is read strictly; on recovery an open one is read up to its torn
end.

* `FileWriter` — the appending side, with the failures a disk can cause: a frame of which only some
  bytes are written, a file that cannot be opened, synchronised or renamed.
* `WriterInv.step` — a file keeps within the limits of the reader, whatever the disk does.
* `SoundFiles.step` — as long as no write fails part-way and no entry has a lone surrogate, a file
  has the frames of its entries and nothing else.
* `journal_files_read_back` — so in such a run every sealed file reads back what was written, whole
  and cut off at any byte.  Neither a torn frame nor a lone surrogate is reported when it happens.
-/

namespace FlameDB.Client

open Go Jvm

/-- `WriteJournal.read`. -/
def readJournal (D : DoubleText) (allowTruncatedTail : Bool) (file : Bytes) :
    Except ReadError (List JournalWrite) :=
  readFile (decodeEntry D) allowTruncatedTail file

/-- A file, and the entries whose append has returned. -/
structure JournalFile where
  content : Bytes
  written : List JournalWrite

section File

variable (D : DoubleText)

/-- The limits the reader enforces. -/
structure WithinLimits (f : JournalFile) : Prop where
  size : f.content.length ≤ maxBatchBytes + maxEntryBytes + 8
  count : f.written.length ≤ 512
  entry : ∀ e ∈ f.written, 1 ≤ (encodeEntry D e).length ∧ (encodeEntry D e).length ≤ maxEntryBytes

/-- The file reads back what was written, whole and cut off at any byte. -/
structure ReadsBack (f : JournalFile) : Prop where
  whole : readJournal D false f.content = .ok f.written
  truncated : ∀ n, ∃ r, readJournal D true (f.content.take n) = .ok r ∧
    CompletePrefix (entryCodec D) f.written n r

/-- The file has the frames of its entries and nothing else, and each of them reads back. -/
structure Sound (f : JournalFile) : Prop where
  content : f.content = frames (entryCodec D) f.written
  faithful : ∀ e ∈ f.written, (entryCodec D).Faithful e

variable {D} {f : JournalFile}

/-- A file with whole frames reads back, and so does every cut of it. -/
lemma Sound.readsBack (h : Sound D f) (hlimits : WithinLimits D f) : ReadsBack D f := by
  have hfit : ∀ e ∈ f.written, Fits (entryCodec D) e := fun e he =>
    ⟨(hlimits.entry e he).2, h.faithful e he⟩
  have hsize := hlimits.size
  have hcount := hlimits.count
  rw [h.content] at hsize
  constructor
  · have hread := readFile_of_holds false hfit (Or.inl rfl)
    rw [List.append_nil, if_neg (Nat.not_lt.mpr hsize), if_neg (Nat.not_lt.mpr hcount),
      if_pos (Or.inl rfl)] at hread
    rw [h.content]
    exact hread
  · intro n
    obtain ⟨r, tail, htake, htail, hpre⟩ := exists_take_frames hfit n
    have hlength : (frames (entryCodec D) r ++ tail).length ≤
      maxBatchBytes + maxEntryBytes + 8 := by
      rw [← htake, List.length_take]
      omega
    have hread := readFile_of_holds true (fun e he => hfit e (hpre.initial.subset he)) htail
    rw [if_neg (Nat.not_lt.mpr hlength),
      if_neg (Nat.not_lt.mpr (hpre.initial.length_le.trans hcount)), if_pos (Or.inr rfl)] at hread
    refine ⟨r, ?_, hpre⟩
    rw [h.content, htake]
    exact hread

end File

/-! ## The appending side

One event is one call.  What the disk does to it is part of the event, so a run is given by the
entries and the failures that occur. -/

/-- How sealing a file can end: the file cannot be synchronised or closed, or not be renamed. -/
inductive SealOutcome where
  | done
  | syncFails
  | moveFails
  deriving DecidableEq

/-- What the disk does to an append: the outcome of sealing, whether a file can be opened, and the
number of bytes written when the write fails. -/
structure DiskFaults where
  sealing : SealOutcome
  opens : Bool
  torn : Option ℕ

/-- The fields of `WriteJournal` that appending uses; `active` is the file of the open stream. -/
structure FileWriter where
  accepting : Bool
  active : Option JournalFile
  count : ℕ
  bytes : ℕ
  retainedBytes : ℤ
  sealed : List JournalFile

/-- What can happen to the appending side. -/
inductive FileEvent where
  | append (e : JournalWrite) (faults : DiskFaults)
  /-- `flushIfDue`. -/
  | flush (outcome : SealOutcome)
  | stopAdmission (outcome : SealOutcome)
  /-- Another file of the directory is kept or removed. -/
  | retain (change : ℤ)

namespace FileWriter

/-- The journal after its start, which keeps `retained` bytes of older files. -/
def start (retained : ℤ) : FileWriter := ⟨true, none, 0, 0, retained, []⟩

/-- Seals the active file, as far as the disk lets it. -/
def sealFile (w : FileWriter) (outcome : SealOutcome) : FileWriter :=
  match w.active, outcome with
  | none, _ => w
  | some f, .done => { w with active := none, count := 0, bytes := 0, sealed := w.sealed ++ [f] }
  | some _, .syncFails => w
  -- the stream is closed, but the counters stay
  | some _, .moveFails => { w with active := none }

lemma accepting_sealFile (w : FileWriter) (outcome : SealOutcome) :
    (w.sealFile outcome).accepting = w.accepting := by
  unfold sealFile
  split <;> rfl

lemma active_sealFile_done (w : FileWriter) : (w.sealFile .done).active = none := by
  unfold sealFile
  cases h : w.active with
  | none => exact h
  | some f => rfl

/-- Sealing makes no new file. -/
lemma mem_sealFile {w : FileWriter} {outcome : SealOutcome} {f : JournalFile}
    (h : f ∈ (w.sealFile outcome).active ∨ f ∈ (w.sealFile outcome).sealed) :
    f ∈ w.active ∨ f ∈ w.sealed := by
  unfold sealFile at h
  cases hactive : w.active with
  | none =>
      rw [hactive] at h
      rw [← hactive]
      exact h
  | some g =>
      rw [hactive] at h
      cases outcome with
      | done => simpa [or_comm, eq_comm] using h
      | syncFails =>
          rw [← hactive]
          exact h
      | moveFails => exact Or.inr (h.resolve_left (by simp))

/-- The open file, or a new one. -/
def opened (w : FileWriter) (opens : Bool) : Option JournalFile :=
  match w.active with
  | some f => some f
  | none => if opens then some ⟨[], []⟩ else none

/-- Appends a frame. A torn one stays in the file and ends admission. -/
def write (w : FileWriter) (e : JournalWrite) (encoded : Bytes) (faults : DiskFaults) :
    FileWriter :=
  match w.opened faults.opens, faults.torn with
  | none, _ => w
  | some f, some n =>
      let torn := (writeFrame encoded).dropLast.take n
      { w with accepting := false, active := some ⟨f.content ++ torn, f.written⟩ }
  | some f, none =>
      { w with
        active := some ⟨f.content ++ writeFrame encoded, f.written ++ [e]⟩
        count := w.count + 1
        bytes := w.bytes + encoded.length + 8
        retainedBytes := w.retainedBytes + encoded.length + 8 }

section Step

variable (D : DoubleText) (batchSize : ℕ) (maxJournalBytes : ℤ)

/-- The frame goes to a new file. -/
def isFull (w : FileWriter) (encoded : Bytes) : Prop :=
  batchSize ≤ w.count ∨ (0 < w.bytes ∧ maxBatchBytes < w.bytes + encoded.length + 8)

instance (w : FileWriter) (encoded : Bytes) : Decidable (w.isFull batchSize encoded) :=
  inferInstanceAs (Decidable (_ ∨ _))

/-- `append` of the buffered client and of its journal; a refused entry leaves the files alone. -/
def append (w : FileWriter) (e : JournalWrite) (faults : DiskFaults) : FileWriter :=
  let encoded := encodeEntry D e
  if e.admissible = false ∨ w.accepting = false then w
  else if maxEntryBytes < encoded.length then w
  else if maxJournalBytes - encoded.length - 8 < w.retainedBytes then w
  else if w.isFull batchSize encoded then
    -- a failure to seal the full file ends the append
    if w.active.isSome ∧ faults.sealing ≠ .done then w.sealFile faults.sealing
    else (w.sealFile .done).write e encoded faults
  else w.write e encoded faults

/-- One event. -/
def step (w : FileWriter) : FileEvent → FileWriter
  | .append e faults => w.append D batchSize maxJournalBytes e faults
  | .flush outcome => w.sealFile outcome
  | .stopAdmission outcome => sealFile { w with accepting := false } outcome
  | .retain change => { w with retainedBytes := w.retainedBytes + change }

/-- The journal writes the entry to the open file of `v`: its own, or a new one after sealing. -/
structure Writes (w : FileWriter) (e : JournalWrite) (v : FileWriter) : Prop where
  admissible : e.admissible = true
  accepting : w.accepting = true
  fits : (encodeEntry D e).length ≤ maxEntryBytes
  target : v = w ∧ ¬ w.isFull batchSize (encodeEntry D e) ∨ v = w.sealFile .done

/-- **What an append does**: nothing, sealing the full file, or one write. -/
lemma append_cases (w : FileWriter) (e : JournalWrite) (faults : DiskFaults) :
    w.append D batchSize maxJournalBytes e faults = w ∨
      (∃ outcome, w.append D batchSize maxJournalBytes e faults = w.sealFile outcome) ∨
      ∃ v, Writes D batchSize w e v ∧
        w.append D batchSize maxJournalBytes e faults = v.write e (encodeEntry D e) faults := by
  unfold append
  dsimp only
  by_cases hrefused : e.admissible = false ∨ w.accepting = false
  · exact Or.inl (if_pos hrefused)
  rw [if_neg hrefused]
  simp only [not_or, Bool.not_eq_false] at hrefused
  by_cases hbig : maxEntryBytes < (encodeEntry D e).length
  · exact Or.inl (if_pos hbig)
  rw [if_neg hbig]
  by_cases hlimit : maxJournalBytes - (encodeEntry D e).length - 8 < w.retainedBytes
  · exact Or.inl (if_pos hlimit)
  rw [if_neg hlimit]
  refine Or.inr ?_
  by_cases hfull : w.isFull batchSize (encodeEntry D e)
  · rw [if_pos hfull]
    split_ifs
    · exact Or.inl ⟨_, rfl⟩
    · exact Or.inr ⟨_, ⟨hrefused.1, hrefused.2, Nat.le_of_not_lt hbig, Or.inr rfl⟩, rfl⟩
  · rw [if_neg hfull]
    exact Or.inr ⟨w, ⟨hrefused.1, hrefused.2, Nat.le_of_not_lt hbig, Or.inl ⟨rfl, hfull⟩⟩, rfl⟩

end Step

end FileWriter

/-! ## Within the limits

The counters are at least those of the open file, and the file is sealed before they pass the
limits. A torn frame is the last thing a file gets. -/

/-- The open file and the counters. -/
structure ActiveInv (D : DoubleText) (w : FileWriter) (f : JournalFile) : Prop where
  limits : WithinLimits D f
  untorn : w.accepting = true → f.content = frames (entryCodec D) f.written
  count : f.written.length ≤ w.count
  bytes : (frames (entryCodec D) f.written).length ≤ w.bytes

/-- Every file is within the limits of a batch. -/
structure WriterInv (D : DoubleText) (w : FileWriter) : Prop where
  active : ∀ f ∈ w.active, ActiveInv D w f
  finished : ∀ f ∈ w.sealed, WithinLimits D f

namespace WriterInv

variable {D : DoubleText} {w v : FileWriter} {e : JournalWrite} {batchSize : ℕ}

lemma start (retained : ℤ) : WriterInv D (.start retained) :=
  ⟨fun _ h => absurd h (by simp [FileWriter.start]), fun _ h => absurd h List.not_mem_nil⟩

lemma sealFile (h : WriterInv D w) (outcome : SealOutcome) : WriterInv D (w.sealFile outcome) := by
  refine ⟨fun f hf => ?_, fun f hf => ?_⟩
  · unfold FileWriter.sealFile at hf ⊢
    cases hactive : w.active with
    | none =>
        simp only [hactive] at hf
        exact absurd hf (by simp)
    | some g =>
        cases outcome with
        | syncFails =>
            simp only [hactive] at hf ⊢
            exact h.active f (by rw [hactive]; exact hf)
        | _ =>
            simp only [hactive] at hf
            exact absurd hf (by simp)
  · rcases FileWriter.mem_sealFile (Or.inr hf) with hf | hf
    · exact (h.active f hf).limits
    · exact h.finished f hf

/-- The file an entry is written to has room for it. -/
structure Room (D : DoubleText) (w : FileWriter) (f : JournalFile) (encoded : Bytes) : Prop where
  active : ActiveInv D w f
  count : f.written.length < 512
  size : f.content.length + (encoded.length + 8) ≤ maxBatchBytes + maxEntryBytes + 8

/-- After the check of the limits there is room for the frame. -/
lemma room_opened (h : WriterInv D v) (hbatch : batchSize ≤ 512)
    (hwrites : FileWriter.Writes D batchSize w e v) (haccept : v.accepting = true) {opens : Bool}
    {f : JournalFile} (hopen : v.opened opens = some f) : Room D v f (encodeEntry D e) := by
  have hfits := hwrites.fits
  unfold FileWriter.opened at hopen
  cases hactive : v.active with
  | none =>
      rw [hactive] at hopen
      obtain ⟨-, rfl⟩ : opens = true ∧ ⟨[], []⟩ = f := by simpa using hopen
      refine ⟨⟨⟨by simp, by simp, by simp⟩, fun _ => rfl, Nat.zero_le _,
        Nat.zero_le _⟩, by simp, ?_⟩
      simp only [List.length_nil]
      omega
  | some g =>
      rw [hactive] at hopen
      obtain rfl : g = f := Option.some.inj hopen
      have hg := h.active g hactive
      -- the file was not sealed just now, so it is not full
      obtain ⟨rfl, hroom⟩ := hwrites.target.resolve_right fun hsealed => by
        rw [hsealed, w.active_sealFile_done] at hactive
        exact absurd hactive (by simp)
      simp only [FileWriter.isFull, not_or, not_and, not_lt, not_le] at hroom
      have hcount := hg.count
      have hbytes := hg.bytes
      rw [← hg.untorn haccept] at hbytes
      refine ⟨hg, by omega, ?_⟩
      rcases Nat.eq_zero_or_pos v.bytes with hzero | hpos
      · omega
      · have := hroom.2 hpos
        omega

lemma write (h : WriterInv D w) (haccept : w.accepting = true) (hadmits : e.admissible = true)
    (hfits : (encodeEntry D e).length ≤ maxEntryBytes) {faults : DiskFaults}
    (hroom : ∀ f, w.opened faults.opens = some f → Room D w f (encodeEntry D e)) :
    WriterInv D (w.write e (encodeEntry D e) faults) := by
  have hlen := writeFrame_length (encodeEntry D e)
  unfold FileWriter.write
  cases hopen : w.opened faults.opens with
  | none => exact h
  | some f =>
      obtain ⟨⟨hlimits, huntorn, hactive, hbytes⟩, hcount, hsize⟩ := hroom f hopen
      have hcontent := huntorn haccept
      cases faults.torn with
      | some n =>
          -- the frame is torn and the journal stops accepting
          refine ⟨fun g hg => ?_, h.finished⟩
          obtain rfl := Option.mem_some_iff.mp hg
          refine ⟨⟨?_, hlimits.count, hlimits.entry⟩,
            fun hfalse => absurd hfalse Bool.false_ne_true, hactive, hbytes⟩
          rw [List.length_append, List.length_take, List.length_dropLast]
          omega
      | none =>
          refine ⟨fun g hg => ?_, h.finished⟩
          obtain rfl := Option.mem_some_iff.mp hg
          have hnew : f.content ++ writeFrame (encodeEntry D e) =
              frames (entryCodec D) (f.written ++ [e]) := by
            rw [frames_append_singleton, hcontent]
            rfl
          refine ⟨⟨?_, ?_, ?_⟩, fun _ => hnew, ?_, ?_⟩
          · rw [List.length_append, hlen]
            exact hsize
          · rw [List.length_append, List.length_singleton]
            exact hcount
          · intro x hx
            rcases List.mem_append.mp hx with hx | hx
            · exact hlimits.entry x hx
            · obtain rfl := List.mem_singleton.mp hx
              exact ⟨List.length_pos_iff.mpr
                (encodeEntry_ne_nil (JournalWrite.isFinite_of_admissible hadmits)), hfits⟩
          · rw [List.length_append, List.length_singleton]
            exact Nat.succ_le_succ hactive
          · rw [← hnew, List.length_append, hlen, hcontent]
            show _ ≤ w.bytes + (encodeEntry D e).length + 8
            omega

/-- Every event keeps the files within the limits of the reader. -/
lemma step (h : WriterInv D w) (hbatch : batchSize ≤ 512) (maxJournalBytes : ℤ)
    (event : FileEvent) : WriterInv D (w.step D batchSize maxJournalBytes event) := by
  cases event with
  | append e faults =>
      show WriterInv D (w.append D batchSize maxJournalBytes e faults)
      obtain heq | ⟨outcome, heq⟩ | ⟨v, hwrites, heq⟩ :=
        w.append_cases D batchSize maxJournalBytes e faults <;> rw [heq]
      · exact h
      · exact h.sealFile outcome
      · have hv : WriterInv D v ∧ v.accepting = true := by
          rcases hwrites.target with ⟨rfl, -⟩ | rfl
          · exact ⟨h, hwrites.accepting⟩
          · exact ⟨h.sealFile .done, (w.accepting_sealFile .done).trans hwrites.accepting⟩
        exact hv.1.write hv.2 hwrites.admissible hwrites.fits fun f hopen =>
          hv.1.room_opened hbatch hwrites hv.2 hopen
  | flush outcome => exact h.sealFile outcome
  | stopAdmission outcome =>
      have hstop : WriterInv D { w with accepting := false } := by
        refine ⟨fun f hf => ?_, h.finished⟩
        obtain ⟨hfile, -, hcount, hbytes⟩ := h.active f hf
        exact ⟨hfile, fun hfalse => absurd hfalse Bool.false_ne_true, hcount, hbytes⟩
      exact hstop.sealFile outcome
  | retain change =>
      refine ⟨fun f hf => ?_, h.finished⟩
      obtain ⟨hfile, huntorn, hcount, hbytes⟩ := h.active f hf
      exact ⟨hfile, huntorn, hcount, hbytes⟩

end WriterInv

/-! ## Runs without torn frames and lone surrogates

In such a run every file has the frames of its entries and nothing else. -/

/-- No write fails part-way, and no string of the entry has a lone surrogate. -/
def FileEvent.Intact : FileEvent → Prop
  | .append e faults => faults.torn = none ∧ e.WellFormed
  | _ => True

instance (event : FileEvent) : Decidable event.Intact := by
  unfold FileEvent.Intact
  split <;> infer_instance

/-- The open file and the sealed ones are sound. -/
def SoundFiles (D : DoubleText) (w : FileWriter) : Prop :=
  ∀ f, f ∈ w.active ∨ f ∈ w.sealed → Sound D f

namespace SoundFiles

variable {D : DoubleText} {w : FileWriter}

lemma sealFile (h : SoundFiles D w) (outcome : SealOutcome) : SoundFiles D (w.sealFile outcome) :=
  fun f hf => h f (FileWriter.mem_sealFile hf)

lemma write (h : SoundFiles D w) {e : JournalWrite} (he : (entryCodec D).Faithful e)
    {faults : DiskFaults} (htorn : faults.torn = none) :
    SoundFiles D (w.write e (encodeEntry D e) faults) := by
  have hopened : ∀ f, w.opened faults.opens = some f → Sound D f := by
    intro f hf
    unfold FileWriter.opened at hf
    cases hactive : w.active with
    | some g =>
        rw [hactive] at hf
        exact h f (Or.inl (hactive.trans hf))
    | none =>
        rw [hactive] at hf
        obtain ⟨-, rfl⟩ : faults.opens = true ∧ ⟨[], []⟩ = f := by simpa using hf
        exact ⟨rfl, by simp⟩
  unfold FileWriter.write
  rw [htorn]
  cases hopen : w.opened faults.opens with
  | none => exact h
  | some f =>
      obtain ⟨hcontent, hfaithful⟩ := hopened f hopen
      rintro g (hg | hg)
      · obtain rfl := Option.mem_some_iff.mp hg
        refine ⟨?_, fun x hx => ?_⟩
        · rw [frames_append_singleton, hcontent]
          rfl
        · rcases List.mem_append.mp hx with hx | hx
          · exact hfaithful x hx
          · exact List.mem_singleton.mp hx ▸ he
      · exact h g (Or.inr hg)

/-- An event without a fault keeps the files sound. -/
lemma step (h : SoundFiles D w) (batchSize : ℕ) (maxJournalBytes : ℤ) {event : FileEvent}
    (hevent : event.Intact) : SoundFiles D (w.step D batchSize maxJournalBytes event) := by
  cases event with
  | append e faults =>
      show SoundFiles D (w.append D batchSize maxJournalBytes e faults)
      obtain heq | ⟨outcome, heq⟩ | ⟨v, hwrites, heq⟩ :=
        w.append_cases D batchSize maxJournalBytes e faults <;> rw [heq]
      · exact h
      · exact h.sealFile outcome
      · have hv : SoundFiles D v := by
          rcases hwrites.target with ⟨rfl, -⟩ | rfl
          · exact h
          · exact h.sealFile .done
        exact hv.write ((faithful_entryCodec hwrites.admissible).mpr hevent.2) hevent.1
  | flush outcome => exact h.sealFile outcome
  | stopAdmission outcome => exact sealFile (w := { w with accepting := false }) h outcome
  | retain change => exact h

end SoundFiles

/-! ## Main result -/

/-- The journal after some events. -/
def FileWriter.run (D : DoubleText) (batchSize : ℕ) (maxJournalBytes retained : ℤ)
    (events : List FileEvent) : FileWriter :=
  events.foldl (FileWriter.step D batchSize maxJournalBytes) (.start retained)

lemma writerInv_run (D : DoubleText) {batchSize : ℕ} (hbatch : batchSize ≤ 512)
    (maxJournalBytes retained : ℤ) (events : List FileEvent) :
    WriterInv D (.run D batchSize maxJournalBytes retained events) :=
  List.foldlRecOn events _ (WriterInv.start retained) fun _ h event _ =>
    h.step hbatch maxJournalBytes event

lemma soundFiles_run (D : DoubleText) (batchSize : ℕ) (maxJournalBytes retained : ℤ)
    {events : List FileEvent} (hevents : ∀ event ∈ events, event.Intact) :
    SoundFiles D (.run D batchSize maxJournalBytes retained events) :=
  List.foldlRecOn (motive := SoundFiles D) events _
    (fun _ hf => hf.elim (fun h => absurd h (by simp [FileWriter.start]))
      fun h => absurd h List.not_mem_nil)
    fun _ h event hevent => h.step batchSize maxJournalBytes (hevents event hevent)

def noFaults : DiskFaults := ⟨.done, true, none⟩

/-- Three entries in batches of two; the last file is sealed when admission stops. -/
def sampleRun : List FileEvent :=
  [.append (sampleWrite "1" (literal "hits") Float64.zero) noFaults,
    .append (sampleWrite "2" (literal "kills") (Float64.ofBits 0x3FF8000000000000)) noFaults,
    .append (sampleWrite "3" (literal "hits") Float64.zero) noFaults, .stopAdmission .done]

end FlameDB.Client
