import FlameDB.Go.Bytes

/-!
# Calls that may crash

An index or a slice out of range stops a Go program.  `Run` is what a call comes to when that is
taken into account: a result, an error, or a crash.  A loop written with a bound on its rounds
crashes as well when it outlives the bound, so that a call shown not to crash is also shown to end.

* `index`, `slice`, `sliceFrom`, `uint16` — accesses with their bounds check.
* `put`, `copyTo` — writes into a buffer, the first with a bounds check, the second cut off at its
  end.
* `Run.ofExcept` — the calls that neither crash nor run on.
* `At` — a cursor and what is left in front of it; the accesses succeed where something is left.
-/

namespace Go

/-- The outcome of code that can return an error and can index out of range. -/
inductive Run (α : Type) where
  | ok (a : α)
  | error (msg : Bytes)
  | crash
  deriving DecidableEq

namespace Run

variable {α β : Type}

instance : Monad Run where
  pure := ok
  bind
    | ok a, f => f a
    | error msg, _ => error msg
    | crash, _ => crash

@[simp] lemma ok_bind (a : α) (f : α → Run β) : (ok a >>= f) = f a := rfl

@[simp] lemma pure_eq (a : α) : (pure a : Run α) = ok a := rfl

@[simp] lemma error_bind (msg : Bytes) (f : α → Run β) : (error msg >>= f) = error msg := rfl

/-- A call that is known not to crash. -/
def ofExcept : Except Bytes α → Run α
  | .ok a => ok a
  | .error msg => error msg

@[simp] lemma ofExcept_ok (a : α) : ofExcept (.ok a) = ok a := rfl

@[simp] lemma ofExcept_error (msg : Bytes) : ofExcept (.error msg : Except Bytes α) = error msg :=
  rfl

lemma ofExcept_bind (x : Except Bytes α) (f : α → Except Bytes β) :
    ofExcept (x >>= f) = ofExcept x >>= fun a => ofExcept (f a) := by
  cases x <;> rfl

end Run

section Access

variable {α : Type}

/-- `s[i]`. -/
def index (s : List α) (i : ℕ) : Run α :=
  match s[i]? with
  | some a => .ok a
  | none => .crash

/-- `s[lo:hi]`, within the length. -/
def slice (s : List α) (lo hi : ℕ) : Run (List α) :=
  if lo ≤ hi ∧ hi ≤ s.length then .ok ((s.drop lo).take (hi - lo)) else .crash

/-- `s[lo:]`. -/
def sliceFrom (s : List α) (lo : ℕ) : Run (List α) :=
  if lo ≤ s.length then .ok (s.drop lo) else .crash

lemma index_of_lt {s : List α} {i : ℕ} (h : i < s.length) : index s i = .ok s[i] := by
  simp [index, h]

lemma slice_of_le {s : List α} {lo n : ℕ} (h : lo + n ≤ s.length) :
    slice s lo (lo + n) = .ok ((s.drop lo).take n) := by
  rw [slice, if_pos ⟨Nat.le_add_right _ _, h⟩, Nat.add_sub_cancel_left]

lemma sliceFrom_of_le {s : List α} {lo : ℕ} (h : lo ≤ s.length) :
    sliceFrom s lo = .ok (s.drop lo) :=
  if_pos h

/-- The cursor `i` stands in front of `rest`. -/
structure At (s : List α) (i : ℕ) (rest : List α) : Prop where
  le : i ≤ s.length
  drop : s.drop i = rest

namespace At

variable {s rest : List α} {i : ℕ} {a : α}

lemma start (s : List α) : At s 0 s := ⟨Nat.zero_le _, rfl⟩

lemma length (h : At s i rest) : s.length = i + rest.length := by
  have := congrArg List.length h.drop
  rw [List.length_drop] at this
  have := h.le
  omega

lemma next (h : At s i (a :: rest)) : At s (i + 1) rest where
  le := by
    have := h.length
    rw [List.length_cons] at this
    omega
  drop := by rw [← List.drop_drop, h.drop, List.drop_one, List.tail_cons]

lemma index_eq (h : At s i (a :: rest)) : index s i = .ok a := by
  have hget : s[i]? = some a := by
    rw [← List.head?_drop, h.drop, List.head?_cons]
  simp [index, hget]

/-- The cursor behind a part of what is left. -/
lemma skip {front : List α} (h : At s i (front ++ rest)) : At s (i + front.length) rest where
  le := by
    have := h.length
    rw [List.length_append] at this
    omega
  drop := by rw [← List.drop_drop, h.drop, List.drop_left]

lemma slice_eq {front : List α} (h : At s i (front ++ rest)) :
    slice s i (i + front.length) = .ok front := by
  have := h.length
  rw [List.length_append] at this
  rw [slice_of_le (by omega), h.drop, List.take_left]

lemma sliceFrom_eq (h : At s i rest) : sliceFrom s i = .ok rest := by
  rw [sliceFrom_of_le h.le, h.drop]

end At

end Access

/-- The `width` bytes of `data[off:]` that `binary.BigEndian` reads. -/
def bigEndian (width : ℕ) (data : Bytes) (off : ℕ) : Run ℕ := do
  let b ← sliceFrom data off
  return beNat (← slice b 0 width)

/-- `binary.BigEndian.Uint16(data[off:])`. -/
def uint16 : Bytes → ℕ → Run ℕ := bigEndian 2

/-- `binary.BigEndian.Uint64(data[off:])`. -/
def uint64 : Bytes → ℕ → Run ℕ := bigEndian 8

lemma bigEndian_of_le {width : ℕ} {data : Bytes} {off : ℕ} (h : off + width ≤ data.length) :
    bigEndian width data off = .ok (beNat ((data.drop off).take width)) := by
  have hslice : slice (data.drop off) 0 width = .ok ((data.drop off).take width) := by
    rw [slice, if_pos ⟨Nat.zero_le _, by rw [List.length_drop]; omega⟩]
    rfl
  simp [bigEndian, sliceFrom_of_le (by omega : off ≤ data.length), hslice]

/-! ## Writing into a buffer -/

/-- `buf[off:]` overwritten with bytes that have to fit. -/
def put (buf : Bytes) (off : ℕ) (b : Bytes) : Run Bytes :=
  if off + b.length ≤ buf.length then .ok
    (buf.take off ++ b ++ buf.drop (off + b.length)) else .crash

/-- `copy(buf[off:], b)`: what does not fit is left out. -/
def copyTo (buf : Bytes) (off : ℕ) (b : Bytes) : Run Bytes := do
  let room ← sliceFrom buf off
  put buf off (b.take room.length)

section Filling

variable {filled b : Bytes} {off n : ℕ} (hoff : filled.length = off) (hb : b.length ≤ n)

include hoff hb

/-- The next write into a buffer that is filled from the front. -/
lemma put_next : put (filled ++ List.replicate n 0) off b =
    .ok (filled ++ b ++ List.replicate (n - b.length) 0) := by
  subst hoff
  have hdrop : (filled ++ List.replicate n 0).drop (filled.length + b.length) =
      List.replicate (n - b.length) (0 : UInt8) := by
    rw [← List.drop_drop, List.drop_left, List.drop_replicate]
  rw [put, if_pos (by simpa using hb), List.take_left, hdrop]

lemma copyTo_next : copyTo (filled ++ List.replicate n 0) off b =
    .ok (filled ++ b ++ List.replicate (n - b.length) 0) := by
  subst hoff
  rw [copyTo, sliceFrom_of_le (by simp), List.drop_left, Run.ok_bind, List.length_replicate,
    List.take_of_length_le hb, put_next rfl hb]

end Filling

end Go
