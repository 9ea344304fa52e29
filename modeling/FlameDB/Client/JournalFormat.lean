import FlameDB.Go.Bytes

/-!
# The files of the write journal

A journal file is a sequence of frames: the length of an entry, its CRC-32 and its JSON text.  A
process that stops while it appends leaves a torn frame at the end, and the reader either refuses
such a file or, on recovery, keeps the complete frames before it.

* `Holds` — the file consists of the frames of some entries and perhaps a torn one;
* `readFile_of_holds` — what the reader makes of such a file;
* `exists_take_frames` — cut off at any byte, a file is one of these again.
-/

namespace FlameDB.Client

open Go

/-- The reflected CRC-32 over the bits of a message. -/
def crc32Bits (c : ℕ) : List Bool → ℕ
  | [] => c
  | b :: bits =>
      if (c % 2 == 1) = b then crc32Bits (c / 2) bits else crc32Bits (c / 2 ^^^ 0xEDB88320) bits

/-- `CRC32`: the lowest bit of a byte comes first. -/
def crc32 (data : Bytes) : UInt32 :=
  UInt32.ofNat (crc32Bits 0xFFFFFFFF (data.flatMap fun b => (List.range 8).map b.toNat.testBit)) ^^^
    0xFFFFFFFF

example : crc32 (bs "123456789") = 0xCBF43926 := by decide +kernel

/-- The entries the client admits, the text of an entry, and the strict reader of such texts. 
Nothing says that a text reads back as its entry: that is `JsonCodec.Faithful`. -/
structure JsonCodec (W : Type) where
  admits : W → Bool
  encode : W → Bytes
  decode : Bytes → Option W

/-- The text of the entry reads back as the entry itself. -/
structure JsonCodec.Faithful {W : Type} (J : JsonCodec W) (w : W) : Prop where
  nonempty : J.encode w ≠ []
  decoded : J.decode (J.encode w) = some w

/-- The largest payload of a frame. -/
def maxEntryBytes : ℕ := 64 * 1024

/-- The bytes after which a file is full. -/
def maxBatchBytes : ℕ := 512 * 1024

/-- `writeFrame`. -/
def writeFrame (encoded : Bytes) : Bytes :=
  beBytes 4 encoded.length ++ (beBytes 4 (crc32 encoded).toNat ++ encoded)

lemma writeFrame_length (encoded : Bytes) : (writeFrame encoded).length = encoded.length + 8 := by
  simp only [writeFrame, List.length_append, beBytes_length]
  omega

/-- Why reading a frame stops: at the end of the file, or because it is damaged. -/
inductive ReadError where
  | eof
  | damaged (message : String)
  deriving DecidableEq

/-- `readInt`; the sizes and checksums of a frame are read without their sign. -/
def readInt (input : Bytes) : Except ReadError (ℕ × Bytes) :=
  if input.length < 4 then .error .eof else .ok (beNat (input.take 4), input.drop 4)

lemma readInt_append {n : ℕ} (hn : n < 256 ^ 4) (rest : Bytes) :
    readInt (beBytes 4 n ++ rest) = .ok (n, rest) := by
  have hlen := beBytes_length 4 n
  rw [readInt, if_neg (by simp [hlen]), List.take_left' hlen, List.drop_left' hlen, beNat_beBytes,
    Nat.mod_eq_of_lt hn]

section Read

variable {W : Type} (decode : Bytes → Option W)

/-- The checks once a frame's length and checksum are known. -/
def readPayload (size checksum : ℕ) (input : Bytes) : Except ReadError (W × Bytes) :=
  if input.length < size then .error .eof
  else if (crc32 (input.take size)).toNat ≠ checksum then
    .error (.damaged "journal CRC mismatch")
  else match decode (input.take size) with
    | none => .error (.damaged "malformed journal entry")
    | some w => .ok (w, input.drop size)

/-- One turn of the reader's loop. -/
def readFrame (input : Bytes) : Except ReadError (W × Bytes) :=
  match readInt input with
  | .error e => .error e
  | .ok (size, input) =>
      if size < 1 ∨ maxEntryBytes < size then .error (.damaged "invalid journal frame length")
      else match readInt input with
        | .error e => .error e
        | .ok (checksum, input) => readPayload decode size checksum input

/-- The reader's loop; a frame has more than one byte, so the length of the input bounds its
turns. -/
def readFrames (allowTruncatedTail : Bool) : ℕ → Bytes → List W → Except ReadError (List W)
  | 0, _, result => .ok result
  | turns + 1, input, result =>
      if input = [] then .ok result
      else match readFrame decode input with
        | .ok (w, rest) =>
            if 512 < result.length + 1 then .error (.damaged "too many journal entries")
            else readFrames allowTruncatedTail turns rest (result ++ [w])
        | .error .eof => if allowTruncatedTail then .ok result else .error .eof
        | .error e => .error e

/-- `WriteJournal.read`. -/
def readFile (allowTruncatedTail : Bool) (file : Bytes) : Except ReadError (List W) :=
  if maxBatchBytes + maxEntryBytes + 8 < file.length then
    .error (.damaged "oversized journal batch")
  else readFrames decode allowTruncatedTail (file.length + 1) file []

/-! ## What the reader makes of what the writer left

A file ends where its last write was cut. The reader returns the complete frames in front of the
cut. -/

variable (J : JsonCodec W)

/-- The frames of some entries. -/
def frames (entries : List W) : Bytes := entries.flatMap fun w => writeFrame (J.encode w)

/-- The entry fits a frame and is read back from it. -/
structure Fits (w : W) : Prop where
  size : (J.encode w).length ≤ maxEntryBytes
  faithful : J.Faithful w

/-- What an interrupted append leaves behind the last complete frame. -/
def Torn (tail : Bytes) : Prop :=
  ∃ w rest, Fits J w ∧ rest ≠ [] ∧ tail ++ rest = writeFrame (J.encode w)

/-- The file has the frames of these entries and perhaps a torn one. -/
def Holds (file : Bytes) (entries : List W) : Prop :=
  ∃ tail, file = frames J entries ++ tail ∧ (∀ w ∈ entries, Fits J w) ∧ (tail = [] ∨ Torn J tail)

variable {J}

/-- A frame reads back, whatever follows it. -/
lemma readFrame_writeFrame {w : W} (hw : Fits J w) (rest : Bytes) :
    readFrame J.decode (writeFrame (J.encode w) ++ rest) = .ok (w, rest) := by
  have hpos : 0 < (J.encode w).length := List.length_pos_iff.mpr hw.faithful.nonempty
  have hmax := hw.size
  have hsize : (J.encode w).length < 256 ^ 4 := hmax.trans_lt (by decide)
  have hcrc : (crc32 (J.encode w)).toNat < 256 ^ 4 := by
    have := (crc32 (J.encode w)).toNat_lt
    omega
  simp only [readFrame, writeFrame, List.append_assoc, readInt_append hsize, readInt_append hcrc]
  rw [if_neg (by omega), readPayload, if_neg (by simp), List.take_left, if_neg (by simp),
    hw.faithful.decoded, List.drop_left]

/-- A torn frame ends too early, wherever it was torn. -/
lemma readFrame_torn {tail : Bytes} (h : Torn J tail) : readFrame J.decode tail = .error .eof := by
  obtain ⟨w, rest, hw, hrest, heq⟩ := h
  have hmax := hw.size
  have hpos : 0 < (J.encode w).length := List.length_pos_iff.mpr hw.faithful.nonempty
  have hrest' : 0 < rest.length := List.length_pos_iff.mpr hrest
  have hlen : tail.length + rest.length = (J.encode w).length + 8 := by
    rw [← List.length_append, heq, writeFrame_length]
  by_cases h4 : tail.length < 4
  · simp [readFrame, readInt, h4]
  -- the length is complete and is that of the entry
  have htake : tail.take 4 = beBytes 4 (J.encode w).length := by
    have := congrArg (List.take 4) heq
    rwa [List.take_append_of_le_length (by omega), writeFrame,
      List.take_left' (beBytes_length 4 _)] at this
  have hsize : beNat (tail.take 4) = (J.encode w).length := by
    rw [htake, beNat_beBytes, Nat.mod_eq_of_lt (hmax.trans_lt (by decide))]
  have hint : readInt tail = .ok ((J.encode w).length, tail.drop 4) := by
    rw [readInt, if_neg h4, hsize]
  simp only [readFrame, hint]
  rw [if_neg (by omega)]
  by_cases h8 : (tail.drop 4).length < 4
  · rw [readInt, if_pos h8]
  · have hshort : ((tail.drop 4).drop 4).length < (J.encode w).length := by
      simp only [List.length_drop] at h8 ⊢
      omega
    rw [readInt, if_neg h8]
    exact if_pos hshort

/-- The loop on a file as the writer leaves it. -/
lemma readFrames_of_holds (allow : Bool) (entries : List W) (hfit : ∀ w ∈ entries, Fits J w)
    {tail : Bytes} (htail : tail = [] ∨ Torn J tail) {turns : ℕ}
    (hturns : (frames J entries ++ tail).length < turns) (result : List W)
    (hcount : result.length ≤ 512) :
    readFrames J.decode allow turns (frames J entries ++ tail) result =
      if 512 < result.length + entries.length then .error (.damaged "too many journal entries")
      else if tail = [] ∨ allow then .ok (result ++ entries) else .error .eof := by
  induction entries generalizing turns result with
  | nil =>
      obtain ⟨turns, rfl⟩ : ∃ t, turns = t + 1 := Nat.exists_eq_succ_of_ne_zero (by omega)
      simp only [frames, List.flatMap_nil, List.nil_append, List.append_nil, List.length_nil,
        Nat.add_zero, readFrames]
      rw [if_neg (by omega : ¬ 512 < result.length)]
      by_cases hnil : tail = []
      · rw [if_pos hnil, if_pos (Or.inl hnil)]
      · rw [if_neg hnil, readFrame_torn (htail.resolve_left hnil)]
        cases allow <;> simp [hnil]
  | cons w entries ih =>
      obtain ⟨turns, rfl⟩ : ∃ t, turns = t + 1 := Nat.exists_eq_succ_of_ne_zero (by omega)
      have hsplit : frames J (w :: entries) ++ tail =
          writeFrame (J.encode w) ++ (frames J entries ++ tail) := by
        simp [frames]
      rw [hsplit] at hturns ⊢
      have hne : writeFrame (J.encode w) ++ (frames J entries ++ tail) ≠ [] := by
        refine List.append_ne_nil_of_left_ne_nil (List.length_pos_iff.mp ?_) _
        rw [writeFrame_length]
        omega
      rw [readFrames, if_neg hne, readFrame_writeFrame (hfit w List.mem_cons_self)]
      simp only [List.length_cons]
      by_cases hfull : 512 < result.length + 1
      · rw [if_pos hfull, if_pos (by omega)]
      · have hrest : (frames J entries ++ tail).length < turns := by
          rw [List.length_append, writeFrame_length] at hturns
          omega
        rw [if_neg hfull, ih (fun w hw => hfit w (.tail _ hw)) hrest _ (by
          simp only [List.length_append, List.length_singleton]; omega)]
        simp [Nat.add_assoc, Nat.add_comm 1]

/-- **Reading back**: within the limits of a file, the recovering reader returns the complete
entries, and the strict reader does so exactly when no frame is torn. -/
theorem readFile_of_holds (allow : Bool) {entries : List W} (hfit : ∀ w ∈ entries, Fits J w)
    {tail : Bytes} (htail : tail = [] ∨ Torn J tail) :
    readFile J.decode allow (frames J entries ++ tail) =
      if maxBatchBytes + maxEntryBytes + 8 < (frames J entries ++ tail).length then
        .error (.damaged "oversized journal batch")
      else if 512 < entries.length then .error (.damaged "too many journal entries")
      else if tail = [] ∨ allow then .ok entries else .error .eof := by
  rw [readFile, readFrames_of_holds allow entries hfit htail (by omega) [] (by simp)]
  simp

/-- So whatever the reader returns are the entries of the file. -/
lemma Holds.readFile_eq {allow : Bool} {file : Bytes} {entries result : List W}
    (h : Holds J file entries) (hread : readFile J.decode allow file = .ok result) :
      result = entries := by
  obtain ⟨tail, rfl, hfit, htail⟩ := h
  rw [readFile_of_holds allow hfit htail] at hread
  split_ifs at hread
  simpa using hread.symm

lemma holds_nil : Holds J [] [] := ⟨[], rfl, by simp, Or.inl rfl⟩

lemma holds_frames {entries : List W} (hfit : ∀ w ∈ entries, Fits J w) :
    Holds J (frames J entries) entries := ⟨[], by simp, hfit, Or.inl rfl⟩

/-- A frame is written piece by piece: the file has its entries and a torn frame, then one entry
more. -/
lemma holds_written {entries : List W} (hfit : ∀ w ∈ entries, Fits J w) {w : W} (hw : Fits J w)
    {written rest : Bytes} (h : written ++ rest = writeFrame (J.encode w)) :
    Holds J (frames J entries ++ written) (if rest = [] then entries ++ [w] else entries) := by
  split_ifs with hrest
  · subst hrest
    rw [List.append_nil] at h
    refine ⟨[], by simp [frames, h], ?_, Or.inl rfl⟩
    simpa [or_imp, forall_and] using ⟨hfit, hw⟩
  · exact ⟨written, rfl, hfit, Or.inr ⟨w, rest, hw, hrest, h⟩⟩

/-! ## Truncated files -/

variable (J) in
/-- The longest beginning of the entries whose frames are within the first `n` bytes. -/
structure CompletePrefix (es : List W) (n : ℕ) (r : List W) : Prop where
  initial : r <+: es
  complete : (frames J r).length ≤ n
  longest : ∀ r', r' <+: es → (frames J r').length ≤ n → r'.length ≤ r.length

lemma frames_cons (w : W) (es : List W) :
    frames J (w :: es) = writeFrame (J.encode w) ++ frames J es := List.flatMap_cons

lemma frames_append_singleton (es : List W) (w : W) :
    frames J (es ++ [w]) = frames J es ++ writeFrame (J.encode w) := by
  rw [frames, List.flatMap_append, List.flatMap_singleton, ← frames]

/-- A truncated file has the frames of the complete entries, and perhaps a torn one. -/
lemma exists_take_frames {es : List W} (h : ∀ w ∈ es, Fits J w) (n : ℕ) :
    ∃ r tail, (frames J es).take n = frames J r ++ tail ∧ (tail = [] ∨ Torn J tail) ∧
      CompletePrefix J es n r := by
  induction es generalizing n with
  | nil =>
      refine ⟨[], [], by simp [frames], Or.inl rfl, List.prefix_rfl, Nat.zero_le n, ?_⟩
      intro r' hr' _
      rw [List.prefix_nil.mp hr']
  | cons w es ih =>
      obtain ⟨hw, hes⟩ := List.forall_mem_cons.mp h
      have hlen := writeFrame_length (J.encode w)
      rw [frames_cons]
      by_cases hn : n < (writeFrame (J.encode w)).length
      · -- cut inside the first frame
        refine ⟨[], (writeFrame (J.encode w)).take n, ?_, ?_, List.nil_prefix, Nat.zero_le n, ?_⟩
        · rw [List.take_append_of_le_length hn.le]
          rfl
        · refine Or.inr ⟨w, (writeFrame (J.encode w)).drop n, hw, ?_, List.take_append_drop n _⟩
          exact List.ne_nil_of_length_pos (by rw [List.length_drop]; omega)
        · intro r' hr' hfit
          cases r' with
          | nil => exact Nat.le_refl 0
          | cons w' r' =>
              obtain ⟨rfl, -⟩ := List.cons_prefix_cons.mp hr'
              rw [frames_cons, List.length_append] at hfit
              omega
      · obtain ⟨r, tail, htake, htail, hpre, hfit, hlong⟩ :=
          ih hes (n - (writeFrame (J.encode w)).length)
        refine ⟨w :: r, tail, ?_, htail, List.cons_prefix_cons.mpr ⟨rfl, hpre⟩, ?_, ?_⟩
        · rw [List.take_append, List.take_of_length_le (by omega), htake, frames_cons,
            List.append_assoc]
        · rw [frames_cons, List.length_append]
          omega
        · intro r' hr' hfit'
          cases r' with
          | nil => exact Nat.zero_le _
          | cons w' r' =>
              obtain ⟨rfl, hrest⟩ := List.cons_prefix_cons.mp hr'
              rw [frames_cons, List.length_append] at hfit'
              exact Nat.succ_le_succ (hlong r' hrest (by omega))

end Read

end FlameDB.Client
