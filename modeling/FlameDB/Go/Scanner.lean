import FlameDB.Go.Strings

/-!
# The lines of a scanner

`bufio.ScanLines` finds the next line in what a scanner has buffered.  A line ends in a line feed,
but once the input has ended or a read has failed, what is left in the buffer is a line as well.

* `scanLines_line` — a complete line is returned as it was written.
* `scanLines_of_notMem` — no line is returned early.
-/

namespace Go

def lineFeed : UInt8 := byte '\n'

def carriageReturn : UInt8 := byte '\r'

/-- Drops one carriage return at the end, as `bufio.ScanLines` does. -/
def dropCR (line : Bytes) : Bytes :=
  if line.getLast? = some carriageReturn then line.dropLast else line

/-- The next line and what is left behind it. -/
def scanLines (data : Bytes) (atEOF : Bool) : Option (Bytes × Bytes) :=
  if lineFeed ∈ data then
    some (dropCR (data.takeWhile (· ≠ lineFeed)), (data.dropWhile (· ≠ lineFeed)).tail)
  else if atEOF = true ∧ data ≠ [] then some (dropCR data, [])
  else none

/-- Text that is one line. -/
structure IsLine (text : Bytes) : Prop where
  lineFeed_notMem : lineFeed ∉ text
  noReturn : text.getLast? ≠ some carriageReturn

instance (text : Bytes) : Decidable (IsLine text) :=
  decidable_of_iff (lineFeed ∉ text ∧ text.getLast? ≠ some carriageReturn)
    ⟨fun h => ⟨h.1, h.2⟩, fun h => ⟨h.1, h.2⟩⟩

lemma scanLines_line {text : Bytes} (h : IsLine text) (rest : Bytes) (atEOF : Bool) :
    scanLines (text ++ lineFeed :: rest) atEOF = some (text, rest) := by
  have hall : ∀ b ∈ text, decide (b ≠ lineFeed) = true := by
    intro b hb
    exact decide_eq_true fun heq => h.lineFeed_notMem (heq ▸ hb)
  have htake : (text ++ lineFeed :: rest).takeWhile (· ≠ lineFeed) = text := by
    rw [List.takeWhile_append_of_pos hall, List.takeWhile_cons_of_neg (by simp), List.append_nil]
  have hdrop : (text ++ lineFeed :: rest).dropWhile (· ≠ lineFeed) = lineFeed :: rest := by
    rw [List.dropWhile_append_of_pos hall, List.dropWhile_cons_of_neg (by simp)]
  rw [scanLines, if_pos (by simp), htake, hdrop, dropCR, if_neg h.noReturn, List.tail_cons]

lemma scanLines_of_notMem {data : Bytes} (h : lineFeed ∉ data) : scanLines data false = none := by
  rw [scanLines, if_neg h, if_neg (by simp)]

lemma scanLines_nil (atEOF : Bool) : scanLines [] atEOF = none := by
  rw [scanLines, if_neg (by simp), if_neg (by simp)]

/-- Of one line with its line feed, a scanner that has read the line feed has read all. -/
lemma eq_of_lineFeed_mem {text buffer rest : Bytes} (htext : lineFeed ∉ text)
    (h : buffer ++ rest = text ++ [lineFeed]) (hmem : lineFeed ∈ buffer) :
    buffer = text ++ [lineFeed] ∧ rest = [] := by
  rcases List.append_eq_append_iff.mp h with ⟨more, htext', -⟩ | ⟨more, hbuffer, hmore⟩
  · exact absurd (htext' ▸ List.mem_append_left more hmem) htext
  · rcases List.singleton_eq_append_iff.mp hmore with ⟨rfl, -⟩ | ⟨rfl, rfl⟩
    · rw [List.append_nil] at hbuffer
      exact absurd (hbuffer ▸ hmem) htext
    · exact ⟨hbuffer, rfl⟩

end Go
