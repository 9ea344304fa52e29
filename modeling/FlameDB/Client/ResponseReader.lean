import FlameDB.Client.CommandPool
import FlameDB.Go.Scanner
import FlameDB.Jvm

/-!
# Reading lines from a socket

`ResponseReader` reads into one buffer and copies a line byte by byte into an array that doubles
until it has the size of the limit.  What a call of `readLine` finds in the buffer was left there by
the call before it.

* `nextPiece` — what a call does to the stream, without buffer, array and packets.
* `readLoop_refines` — the loop does that, for every way in which the socket delivers the stream.
* `nextPiece_pieces` — the calls walk through the pieces between the line feeds.
* `readLine_pieces` — the outcome of every call up to the first line that is too long or without
  end.
-/

namespace FlameDB.Client

open Go Jvm

/-- The failures of a read. -/
inductive ResponseFailure where
  | protocol (kind : ErrorKind) (message : String)
  | indexOutOfBounds
  deriving DecidableEq

namespace ResponseFailure

def missingLF : ResponseFailure :=
  .protocol .invalidResponse "incomplete FlameDB response: missing LF"

def tooLarge (limit : ℕ) : ResponseFailure :=
  .protocol .responseTooLarge s!"FlameDB response exceeds maxResponseBytes={limit}"

def invalidUtf8 : ResponseFailure := .protocol .invalidResponse "invalid UTF-8 in FlameDB response"

end ResponseFailure

/-- `ResponseReader`.  `stop` is the source's `end`, and `input` what the socket has still to
deliver: a read gets one packet, or as much of it as the buffer holds. -/
structure ResponseReader where
  limit : ℕ
  buffer : Bytes
  position : ℕ
  stop : ℤ
  input : List Bytes

/-- The array of a line that is being read, with the number of bytes in it. -/
structure LineArray where
  bytes : Bytes
  size : ℕ

namespace ResponseReader

/-- A reader over the chunks that the socket will deliver. -/
def new (limit : ℕ) (input : List Bytes) : ResponseReader :=
  ⟨limit, List.replicate (min 8192 (limit + 1)) 0, 0, 0, input⟩

/-- `end = input.read(buffer); position = 0`. -/
def read (r : ResponseReader) : ResponseReader :=
  match r.input with
  | [] => { r with stop := -1, position := 0 }
  | packet :: rest =>
      let got := packet.take r.buffer.length
      { r with
        buffer := got ++ r.buffer.drop got.length
        stop := got.length
        position := 0
        input := if packet.length ≤ r.buffer.length then rest
          else packet.drop r.buffer.length :: rest }

/-- `copyOf`: the rest of the new array is zero. -/
def copyOf (bytes : Bytes) (size : ℕ) : Bytes :=
  bytes.take size ++ List.replicate (size - bytes.length) 0

/-- A full array is doubled, up to the limit. -/
def grow (limit : ℕ) (line : LineArray) : Bytes :=
  if line.size = line.bytes.length then copyOf line.bytes (min limit (line.bytes.length * 2))
  else line.bytes

/-- The loop goes on with a line, or ends with a line or a failure. -/
abbrev Turn := LineArray ⊕ Except ResponseFailure LineArray

/-- The part of the loop after the buffer was filled. -/
def takeByte (r : ResponseReader) (line : LineArray) : ResponseReader × Turn :=
  match r.buffer[r.position]? with
  | none => (r, .inr (.error .indexOutOfBounds))
  | some b =>
      let r := { r with position := r.position + 1 }
      if b = lineFeed then (r, .inr (.ok line))
      else if line.size = r.limit then (r, .inr (.error (.tooLarge r.limit)))
      else
        let bytes := grow r.limit line
        if line.size < bytes.length then (r, .inl ⟨bytes.set line.size b, line.size + 1⟩)
        else (r, .inr (.error .indexOutOfBounds))

/-- The body of the loop. -/
def turn (r : ResponseReader) (line : LineArray) : ResponseReader × Turn :=
  if (r.position : ℤ) = r.stop then
    let r := r.read
    if r.stop < 0 then (r, .inr (.error .missingLF))
    else if r.stop = 0 then (r, .inl line)
    else r.takeByte line
  else r.takeByte line

/-- Turns until the line ends. -/
def readLoop : ℕ → ResponseReader → LineArray →
    Option (ResponseReader × Except ResponseFailure LineArray)
  | 0, _, _ => none
  | fuel + 1, r, line =>
      match r.turn line with
      | (r, .inl line) => readLoop fuel r line
      | (r, .inr result) => some (r, result)

/-- The bytes in the buffer that were not read yet. -/
def buffered (r : ResponseReader) : Bytes :=
  (r.buffer.take r.stop.toNat).drop r.position

/-- The turns the loop can make at most. -/
def turns (r : ResponseReader) : ℕ :=
  r.buffered.length + (r.input.map fun packet => 2 * packet.length + 1).sum + 1

/-- One carriage return at the end is left out, and what is left is decoded. -/
def finish (line : LineArray) : Except ResponseFailure Utf16 :=
  let size := if 0 < line.size ∧ line.bytes[line.size - 1]? = some carriageReturn then line.size - 1
    else line.size
  match decodeUtf8 (line.bytes.take size) with
  | some text => .ok text
  | none => .error .invalidUtf8

/-- One response. `ResponseReader.turns` bounds the turns it needs. -/
def readLine (r : ResponseReader) : Option (ResponseReader × Except ResponseFailure Utf16) :=
  (readLoop r.turns r ⟨List.replicate (min 256 r.limit) 0, 0⟩).map fun p => (p.1, p.2.bind finish)

/-- The outcome of the call with this number, counted from zero. -/
def outcome : ℕ → ResponseReader → Option (Except ResponseFailure Utf16)
  | 0, r => r.readLine.map Prod.snd
  | n + 1, r => r.readLine.bind fun p => outcome n p.1

/-! ## The stream behind the buffer

The unread part of the buffer and the chunks to come. A refill moves the border between them and
nothing else. -/

/-- What is left of the stream. -/
def stream (r : ResponseReader) : Bytes := r.buffered ++ r.input.flatten

/-- The indices of the buffer are in order. -/
structure Valid (r : ResponseReader) : Prop where
  room : 0 < r.buffer.length
  started : 0 ≤ r.stop
  within : r.stop.toNat ≤ r.buffer.length
  order : r.position ≤ r.stop.toNat

lemma valid_new (limit : ℕ) (input : List Bytes) : (new limit input).Valid := by
  refine ⟨?_, le_rfl, Nat.zero_le _, le_rfl⟩
  simp only [new, List.length_replicate]
  omega

lemma stream_new (limit : ℕ) (input : List Bytes) : (new limit input).stream = input.flatten := by
  simp [new, stream, buffered]

end ResponseReader

/-- **What a call does to the stream**, with `content` already read. -/
def nextPiece (limit : ℕ) : Bytes → Bytes → Except ResponseFailure (Bytes × Bytes)
  | _, [] => .error .missingLF
  | content, b :: rest =>
      if b = lineFeed then .ok (content, rest)
      else if content.length = limit then .error (.tooLarge limit)
      else nextPiece limit (content ++ [b]) rest

namespace LineArray

/-- The bytes of the line so far. -/
def content (line : LineArray) : Bytes := line.bytes.take line.size

/-- The array is large enough to double, and holds what was read. -/
structure Valid (limit : ℕ) (line : LineArray) : Prop where
  size_le : line.size ≤ line.bytes.length
  length_le : line.bytes.length ≤ limit
  pos : 0 < limit → 0 < line.bytes.length

lemma length_content {limit : ℕ} {line : LineArray} (h : line.Valid limit) :
    line.content.length = line.size := by
  rw [content, List.length_take, Nat.min_eq_left h.size_le]

lemma content_set {bytes : Bytes} {size : ℕ} {b : UInt8} (h : size < bytes.length) :
    content ⟨bytes.set size b, size + 1⟩ = bytes.take size ++ [b] := by
  show (bytes.set size b).take (size + 1) = _
  rw [List.take_succ_eq_append_getElem (by simpa using h), List.take_set_of_le le_rfl,
    List.getElem_set_self]

end LineArray

namespace ResponseReader

variable {r : ResponseReader} {line : LineArray}

/-! ## One turn

A turn of the loop looks at one window of the buffer: the line feed is in it, or all of it belongs
to the line. -/

/-- A turn went on: what the line holds and what is left of the stream lead to the same outcome. -/
structure Goes (r : ResponseReader) (line : LineArray) (r' : ResponseReader) (line' : LineArray) :
    Prop where
  valid : r'.Valid
  array : line'.Valid r'.limit
  limit : r'.limit = r.limit
  piece : nextPiece r'.limit line'.content r'.stream = nextPiece r.limit line.content r.stream
  turns : r'.turns < r.turns

/-- What the loop ends with is what the stream has: a line, with the rest of the stream behind it,
or the failure. -/
def Ends (r : ResponseReader) : Except ResponseFailure LineArray →
    Except ResponseFailure (Bytes × Bytes) → Prop
  | .ok line, .ok (content, rest) => line.content = content ∧ line.Valid r.limit ∧ r.Valid ∧
      r.stream = rest
  | .error e, .error e' => e = e'
  | _, _ => False

/-- A turn goes on with the same piece, or ends as the piece does. -/
def Turned (r : ResponseReader) (line : LineArray) : ResponseReader × Turn → Prop
  | (r', .inl line') => Goes r line r' line'
  | (r', .inr result) =>
      r'.limit = r.limit ∧ Ends r' result (nextPiece r.limit line.content r.stream)

lemma buffered_cons (h : r.Valid) (hlt : r.position < r.stop.toNat) :
    ∃ b, r.buffer[r.position]? = some b ∧
      r.buffered = b :: buffered { r with position := r.position + 1 } := by
  have hroom : r.position < r.buffer.length := hlt.trans_le h.within
  refine ⟨r.buffer[r.position], List.getElem?_eq_getElem hroom, ?_⟩
  have htake : r.position < (r.buffer.take r.stop.toNat).length := by
    rw [List.length_take]
    exact lt_min hlt hroom
  rw [buffered, List.drop_eq_getElem_cons htake, List.getElem_take]
  rfl

lemma Valid.advance (h : r.Valid) (hlt : r.position < r.stop.toNat) :
    Valid { r with position := r.position + 1 } := ⟨h.room, h.started, h.within, hlt⟩

/-- The array has room for a byte after it was doubled. -/
lemma grow_spec {limit : ℕ} (h : line.Valid limit) (hlimit : line.size ≠ limit) :
    line.size < (grow limit line).length ∧ (grow limit line).length ≤ limit ∧
      (grow limit line).take line.size = line.content := by
  have hsize := h.size_le
  have hlength := h.length_le
  rw [grow]
  split_ifs with hfull
  · have hpos := h.pos (by omega)
    have hkept : line.bytes.take (min limit (line.bytes.length * 2)) = line.bytes :=
      List.take_of_length_le (by omega)
    rw [copyOf, hkept, List.length_append, List.length_replicate]
    exact ⟨by omega, by omega, List.take_append_of_le_length hsize⟩
  · exact ⟨by omega, hlength, rfl⟩

/-- The turn when the buffer is not empty. -/
lemma takeByte_spec (h : r.Valid) (hline : line.Valid r.limit) (hlt : r.position < r.stop.toNat) :
    Turned r line (r.takeByte line) := by
  obtain ⟨b, hb, hbuffered⟩ := buffered_cons h hlt
  have hstream : r.stream = b :: stream { r with position := r.position + 1 } := by
    rw [stream, hbuffered]
    rfl
  have hturns : turns { r with position := r.position + 1 } < r.turns := by
    simp only [turns, hbuffered, List.length_cons]
    omega
  simp only [takeByte, hb]
  split_ifs with hfeed hlimit hroom
  · refine ⟨rfl, ?_⟩
    rw [hstream, nextPiece, if_pos hfeed]
    exact ⟨rfl, hline, h.advance hlt, rfl⟩
  · refine ⟨rfl, ?_⟩
    rw [hstream, nextPiece, if_neg hfeed, if_pos ((LineArray.length_content hline).trans hlimit)]
    exact rfl
  · obtain ⟨-, hgrown, hcontent⟩ := grow_spec hline hlimit
    refine ⟨h.advance hlt, ⟨?_, ?_, ?_⟩, rfl, ?_, hturns⟩
    · rw [List.length_set]
      exact hroom
    · rw [List.length_set]
      exact hgrown
    · rw [List.length_set]
      omega
    · rw [hstream, LineArray.content_set hroom, hcontent, nextPiece.eq_def r.limit line.content]
      dsimp only
      rw [if_neg hfeed, if_neg ((LineArray.length_content hline).trans_ne hlimit)]
  · exact absurd (grow_spec hline hlimit).1 hroom

/-- A read puts the start of a packet into the buffer. -/
lemma read_packet (h : r.Valid) (hstop : (r.position : ℤ) = r.stop) {packet : Bytes}
    {rest : List Bytes} (hinput : r.input = packet :: rest) :
    r.read.Valid ∧ r.read.stream = r.stream ∧ r.read.turns < r.turns := by
  have hroom := h.room
  have hempty : r.buffered = [] := by
    rw [buffered, ← hstop, Int.toNat_natCast]
    exact List.drop_eq_nil_of_le (List.length_take_le _ _)
  have hlength : (packet.take r.buffer.length).length ≤ r.buffer.length := List.length_take_le _ _
  have hbuffered : r.read.buffered = packet.take r.buffer.length := by
    simp only [read, hinput, buffered, Int.toNat_natCast, List.drop_zero]
    exact List.take_left
  refine ⟨⟨?_, ?_, ?_, ?_⟩, ?_, ?_⟩
  · simp only [read, hinput, List.length_append, List.length_drop]
    omega
  · simp only [read, hinput]
    exact Int.natCast_nonneg _
  · simp only [read, hinput, Int.toNat_natCast, List.length_append, List.length_drop]
    omega
  · simp only [read, hinput]
    exact Nat.zero_le _
  · rw [stream, stream, hbuffered, hempty, hinput, List.nil_append, List.flatten_cons]
    simp only [read, hinput]
    split_ifs with hfits
    · rw [List.take_of_length_le hfits]
    · rw [List.flatten_cons, ← List.append_assoc, List.take_append_drop]
  · simp only [turns, hbuffered, hempty, hinput]
    simp only [read, hinput]
    split_ifs with hfits
    · simp only [List.map_cons, List.sum_cons, List.length_take, List.length_nil]
      omega
    · simp only [List.map_cons, List.sum_cons, List.length_take, List.length_drop, List.length_nil]
      omega

lemma read_limit (r : ResponseReader) : r.read.limit = r.limit := by
  unfold read
  split <;> rfl

/-- A turn from a reader that is at the same place in the stream. -/
lemma Turned.of_read (hstream : r.read.stream = r.stream) (hturns : r.read.turns < r.turns)
    {out : ResponseReader × Turn} (h : Turned r.read line out) : Turned r line out := by
  obtain ⟨r', line' | result⟩ := out
  · refine ⟨h.valid, h.array, h.limit.trans r.read_limit, ?_, h.turns.trans hturns⟩
    rw [h.piece, hstream, r.read_limit]
  · obtain ⟨hlimit, hends⟩ := h
    rw [hstream, r.read_limit] at hends
    exact ⟨hlimit.trans r.read_limit, hends⟩

/-- A turn does to the stream what its definition says. -/
lemma turn_spec (h : r.Valid) (hline : line.Valid r.limit) : Turned r line (r.turn line) := by
  rw [turn]
  have horder := h.order
  have hstarted := h.started
  split_ifs with hstop
  · cases hinput : r.input with
    | nil =>
        have hread : r.read = { r with stop := -1, position := 0 } := by rw [read, hinput]
        have hempty : r.stream = [] := by
          rw [stream, buffered, hinput, ← hstop, Int.toNat_natCast,
            List.drop_eq_nil_of_le (List.length_take_le _ _)]
          rfl
        rw [hread, if_pos neg_one_lt_zero]
        refine ⟨rfl, ?_⟩
        rw [hempty, nextPiece]
        exact rfl
    | cons packet rest =>
        obtain ⟨hvalid, hstream, hturns⟩ := read_packet h hstop hinput
        have hline' : line.Valid r.read.limit := r.read_limit ▸ hline
        have hread := hvalid.started
        rw [if_neg (by omega)]
        split_ifs with hzero
        · refine ⟨hvalid, hline', r.read_limit, ?_, hturns⟩
          rw [hstream, r.read_limit]
        · have hposition : r.read.position = 0 := by
            simp only [read, hinput]
          exact (takeByte_spec hvalid hline' (by omega)).of_read hstream hturns
  · exact takeByte_spec h hline (by omega)

/-! ## One call -/

/-- **The loop reads the next piece of the stream**, however the socket delivers it. -/
theorem readLoop_refines {fuel : ℕ} (h : r.Valid) (hline : line.Valid r.limit)
    (hfuel : r.turns ≤ fuel) :
    ∃ r' result, readLoop fuel r line = some (r', result) ∧ r'.limit = r.limit ∧
      Ends r' result (nextPiece r.limit line.content r.stream) := by
  induction fuel generalizing r line with
  | zero => exact absurd hfuel (by simp [turns])
  | succ fuel ih =>
      have hturn := turn_spec h hline
      rw [readLoop]
      generalize r.turn line = out at hturn
      obtain ⟨r', line' | result⟩ := out
      · have hgoes : Goes r line r' line' := hturn
        have hless := hgoes.turns
        obtain ⟨r'', result, hloop, hlimit, hends⟩ := ih hgoes.valid hgoes.array (by omega)
        rw [hgoes.piece] at hends
        exact ⟨r'', result, hloop, hlimit.trans hgoes.limit, hends⟩
      · exact ⟨r', result, rfl, hturn.1, hturn.2⟩

/-- A piece as a call returns it. -/
def decodeLine (piece : Bytes) : Except ResponseFailure Utf16 :=
  match decodeUtf8 (dropCR piece) with
  | some text => .ok text
  | none => .error .invalidUtf8

/-- The array without a carriage return at its end, decoded. -/
lemma finish_eq {limit : ℕ} (h : line.Valid limit) : finish line = decodeLine line.content := by
  have hsize := h.size_le
  have hlast : line.content.getLast? =
      if line.size = 0 then none else line.bytes[line.size - 1]? := by
    rw [List.getLast?_eq_getElem?, LineArray.length_content h, LineArray.content]
    split_ifs with hzero
    · rw [hzero]
      rfl
    · exact List.getElem?_take_of_lt (by omega)
  have hcut : line.content.dropLast = line.bytes.take (line.size - 1) := by
    rw [List.dropLast_eq_take, LineArray.length_content h, LineArray.content, List.take_take,
      Nat.min_eq_left (by omega)]
  have hline : line.bytes.take (if 0 < line.size ∧
      line.bytes[line.size - 1]? = some carriageReturn then line.size - 1 else line.size) =
        dropCR line.content := by
    rw [dropCR, hlast, hcut]
    by_cases hzero : line.size = 0
    · rw [if_neg (by omega), if_pos hzero, if_neg (by simp)]
      rfl
    · rw [if_neg hzero]
      by_cases hreturn : line.bytes[line.size - 1]? = some carriageReturn
      · rw [if_pos ⟨by omega, hreturn⟩, if_pos hreturn]
      · rw [if_neg (fun hboth => hreturn hboth.2), if_neg hreturn]
        rfl
  simp only [finish, decodeLine, hline]

lemma valid_start (limit : ℕ) : LineArray.Valid limit ⟨List.replicate (min 256 limit) 0, 0⟩ := by
  refine ⟨Nat.zero_le _, ?_, ?_⟩
  · simp only [List.length_replicate]
    omega
  · simp only [List.length_replicate]
    omega

/-- A call returns the next piece and stays behind it, or fails as the stream does. -/
lemma readLine_refines (h : r.Valid) :
    match nextPiece r.limit [] r.stream with
    | .ok (piece, rest) => ∃ r', r.readLine = some (r', decodeLine piece) ∧ r'.limit = r.limit ∧
        r'.Valid ∧ r'.stream = rest
    | .error e => ∃ r', r.readLine = some (r', .error e) := by
  obtain ⟨r', result, hloop, hlimit, hends⟩ := readLoop_refines h (valid_start r.limit) le_rfl
  have hcontent : LineArray.content ⟨List.replicate (min 256 r.limit) 0, 0⟩ = [] := List.take_zero
  rw [hcontent] at hends
  rw [readLine, hloop]
  generalize nextPiece r.limit [] r.stream = piece at hends
  cases piece with
  | error e =>
      cases result with
      | error e' =>
          obtain rfl : e' = e := hends
          exact ⟨r', rfl⟩
      | ok line => exact hends.elim
  | ok piece =>
      obtain ⟨piece, rest⟩ := piece
      cases result with
      | error e' => exact hends.elim
      | ok line =>
          obtain ⟨rfl, hline, hvalid, hstream⟩ := hends
          refine ⟨r', ?_, hlimit, hvalid, hstream⟩
          show some (r', finish line) = _
          rw [finish_eq hline]

end ResponseReader

/-! ## The pieces

The stream cut at its line feeds and at the size limit, without any buffer. -/

/-- The pieces of a stream: between its line feeds, before the first and after the last one. -/
def pieces (stream : Bytes) : List Bytes := stream.splitOn lineFeed

lemma pieces_cons (b : UInt8) (rest : Bytes) : pieces (b :: rest) =
    if b = lineFeed then [] :: pieces rest else (pieces rest).modifyHead (List.cons b) := by
  simp only [pieces, List.splitOn, List.splitOnP_cons_eq_if_modifyHead, beq_iff_eq]

/-- **The next piece of a stream is the first of its pieces**, and the others are those of the
rest. -/
lemma nextPiece_pieces {limit : ℕ} {content stream piece : Bytes} {more : List Bytes}
    (hcontent : content.length ≤ limit) (hpieces : pieces stream = piece :: more) :
    if limit < content.length + piece.length then
      nextPiece limit content stream = .error (.tooLarge limit)
    else if more = [] then nextPiece limit content stream = .error .missingLF
    else ∃ rest, nextPiece limit content stream = .ok (content ++ piece, rest) ∧
      pieces rest = more := by
  induction stream generalizing content piece with
  | nil =>
      obtain ⟨rfl, rfl⟩ : piece = [] ∧ more = [] := by
        simpa [pieces, eq_comm] using hpieces
      rw [if_neg (by simpa using hcontent), if_pos rfl]
      exact rfl
  | cons b rest ih =>
      rw [pieces_cons] at hpieces
      split_ifs at hpieces with hfeed
      · obtain ⟨rfl, rfl⟩ := List.cons.inj hpieces
        have hmore : pieces rest ≠ [] := List.splitOn_ne_nil _ _
        rw [if_neg (by simpa using hcontent), if_neg hmore, nextPiece, if_pos hfeed]
        exact ⟨rest, by rw [List.append_nil], rfl⟩
      · cases hrest : pieces rest with
        | nil => exact absurd hrest (List.splitOn_ne_nil _ _)
        | cons piece' more' =>
            rw [hrest, List.modifyHead_cons] at hpieces
            obtain ⟨rfl, rfl⟩ := List.cons.inj hpieces
            rw [nextPiece, if_neg hfeed]
            by_cases hfull : content.length = limit
            · rw [if_pos hfull, if_pos (by rw [List.length_cons]; omega)]
            · rw [if_neg hfull]
              have hlength : (content ++ [b]).length = content.length + 1 := List.length_append
              have hnext := ih (show (content ++ [b]).length ≤ limit by omega) hrest
              rw [hlength, List.append_assoc, List.singleton_append] at hnext
              rw [List.length_cons, Nat.add_comm piece'.length 1, ← Nat.add_assoc]
              exact hnext

/-- What the call for a piece has to give. -/
def pieceOutcome (limit : ℕ) (piece : Bytes) (terminated : Bool) : Except ResponseFailure Utf16 :=
  if limit < piece.length then .error (.tooLarge limit)
  else if terminated then ResponseReader.decodeLine piece
  else .error .missingLF

/-- A call gives the outcome of the first piece, and stays before the others if that was a line. -/
lemma readLine_piece {r : ResponseReader} (h : r.Valid) {piece : Bytes} {more : List Bytes}
    (hpieces : pieces r.stream = piece :: more) :
    ∃ r', r.readLine = some (r', pieceOutcome r.limit piece (decide (more ≠ []))) ∧
      (piece.length ≤ r.limit → more ≠ [] → r'.limit = r.limit ∧ r'.Valid ∧
        pieces r'.stream = more) := by
  have hread := ResponseReader.readLine_refines h
  have hempty : ([] : Bytes).length ≤ r.limit := Nat.zero_le _
  have hnext := nextPiece_pieces hempty hpieces
  rw [List.length_nil, Nat.zero_add, List.nil_append] at hnext
  by_cases hlong : r.limit < piece.length
  · rw [if_pos hlong] at hnext
    rw [hnext] at hread
    obtain ⟨r', hread⟩ := hread
    rw [pieceOutcome, if_pos hlong]
    exact ⟨r', hread, fun hle => absurd hle (by omega)⟩
  rw [if_neg hlong] at hnext
  rw [pieceOutcome, if_neg hlong]
  by_cases hmore : more = []
  · rw [if_pos hmore] at hnext
    rw [hnext] at hread
    obtain ⟨r', hread⟩ := hread
    rw [if_neg (by simp [hmore])]
    exact ⟨r', hread, fun _ hne => absurd hmore hne⟩
  · rw [if_neg hmore] at hnext
    obtain ⟨rest, hnext, hrest⟩ := hnext
    rw [hnext] at hread
    obtain ⟨r', hread, hlimit, hvalid, hstream⟩ := hread
    rw [if_pos (decide_eq_true hmore)]
    exact ⟨r', hread, fun _ _ => ⟨hlimit, hvalid, hstream.symm ▸ hrest⟩⟩

/-- The `n`-th call answers for the `n`-th piece, as long as no earlier one was too long. -/
lemma outcome_pieces {r : ResponseReader} (h : r.Valid) {n : ℕ} {piece : Bytes}
    (hpiece : (pieces r.stream)[n]? = some piece)
    (hbefore : ∀ earlier ∈ (pieces r.stream).take n, earlier.length ≤ r.limit) :
    r.outcome n =
      some (pieceOutcome r.limit piece (decide (n + 1 < (pieces r.stream).length))) := by
  induction n generalizing r with
  | zero =>
      cases hpieces : pieces r.stream with
      | nil => simp [hpieces] at hpiece
      | cons first more =>
          obtain rfl : first = piece := by simpa [hpieces] using hpiece
          obtain ⟨r', hread, -⟩ := readLine_piece h hpieces
          have hmore : decide (more ≠ []) = decide (0 + 1 < (first :: more).length) := by
            simp [List.length_pos_iff]
          rw [ResponseReader.outcome, hread, hmore]
          rfl
  | succ n ih =>
      cases hpieces : pieces r.stream with
      | nil => simp [hpieces] at hpiece
      | cons first more =>
          rw [hpieces, List.getElem?_cons_succ] at hpiece
          rw [hpieces, List.take_succ_cons] at hbefore
          have hmore : more ≠ [] := by
            rintro rfl
            simp at hpiece
          obtain ⟨r', hread, hrest⟩ := readLine_piece h hpieces
          obtain ⟨hlimit, hvalid, hpieces'⟩ := hrest (hbefore first List.mem_cons_self) hmore
          rw [ResponseReader.outcome, hread, Option.bind_some]
          have hlater : ∀ earlier ∈ (pieces r'.stream).take n, earlier.length ≤ r'.limit := by
            intro earlier hmem
            rw [hpieces'] at hmem
            rw [hlimit]
            exact hbefore earlier (List.mem_cons_of_mem _ hmem)
          rw [ih hvalid (hpieces'.symm ▸ hpiece) hlater, hlimit, hpieces']
          simp only [List.length_cons, Nat.add_lt_add_iff_right]

/-- **Lines do not depend on packets**: as long as no piece before it was longer than the limit, the
call with the number of a piece decodes that piece without its carriage return if a line feed ended
it, and fails if it is longer than the limit or the stream ended in it. -/
theorem readLine_pieces (limit : ℕ) (input : List Bytes) {n : ℕ} {piece : Bytes}
    (hpiece : (pieces input.flatten)[n]? = some piece)
    (hbefore : ∀ earlier ∈ (pieces input.flatten).take n, earlier.length ≤ limit) :
    (ResponseReader.new limit input).outcome n =
      some (pieceOutcome limit piece (decide (n + 1 < (pieces input.flatten).length))) := by
  have hstream := ResponseReader.stream_new limit input
  have houtcome := @outcome_pieces _ (ResponseReader.valid_new limit input) n piece
  rw [hstream] at houtcome
  exact houtcome hpiece hbefore

/-- A line over two chunks, then one without its line feed. -/
theorem readLine_pieces_sample :
    (ResponseReader.new 3 [bs "a\r", [], bs "\nb", bs "c\nde"]).outcome 1 =
      some (.ok (ascii (bs "bc"))) ∧
      (ResponseReader.new 3 [bs "a\r", [], bs "\nb", bs "c\nde"]).outcome 2 =
        some (.error .missingLF) := by
  constructor
  · refine (@readLine_pieces 3 _ 1 (bs "bc") ?_ ?_).trans ?_ <;> decide +kernel
  · refine (@readLine_pieces 3 _ 2 (bs "de") ?_ ?_).trans ?_ <;> decide +kernel

/-- A piece that is not UTF-8 is not returned, and the call after a piece that is too long goes on
inside that piece. -/
theorem readLine_invalid :
    (pieces [0xff, lineFeed] = [[0xff], []] ∧
      (ResponseReader.new 3 [[0xff, lineFeed]]).outcome 0 = some (.error .invalidUtf8)) ∧
    pieces (bs "abcdef\nx\n") = [bs "abcdef", bs "x", []] ∧
      (ResponseReader.new 3 [bs "abcdef\nx\n"]).outcome 0 = some (.error (.tooLarge 3)) ∧
      (ResponseReader.new 3 [bs "abcdef\nx\n"]).outcome 1 = some (.ok (ascii (bs "ef"))) := by
  decide +kernel

end FlameDB.Client
