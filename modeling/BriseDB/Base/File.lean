import BriseDB.Base.Bytes
import BriseDB.Base.Exec

/-!
# Positional reads and writes

The contents of a file are a byte string.  A positional read returns the bytes
that are there, possibly fewer than asked for; a positional write overwrites,
extends the file and fills a gap with zeros.  A write can be cut short by the
environment and always fails past the largest file offset.
-/

namespace BriseDB.File

/-- The largest size of a file: offsets are signed 64-bit integers. -/
def maxSize : Nat :=
  2 ^ 63 - 1

/-- Up to `count` bytes starting at `offset`. -/
def readAt (contents : Bytes) (offset count : Nat) : Bytes :=
  (contents.drop offset).take count

/-- Contents after a complete write of `data` at `offset`. -/
def writeAt (contents : Bytes) (offset : Nat) (data : Bytes) : Bytes :=
  if data = [] then contents
  else contents.take offset ++ List.replicate (offset - contents.length) 0 ++ data ++
    contents.drop (offset + data.length)

/-! ## Reads -/

theorem readAt_append_left {first rest : Bytes} {offset count : Nat}
    (inside : offset + count ≤ first.length) :
    readAt (first ++ rest) offset count = readAt first offset count := by
  unfold readAt
  rw [List.drop_append_of_le_length (by omega), List.take_append_of_le_length]
  rw [List.length_drop]
  omega

/-- A complete read is not affected by bytes behind it. -/
theorem readAt_append_of_full {first : Bytes} {offset count : Nat}
    (full : count ≤ (readAt first offset count).length) (rest : Bytes) :
    readAt (first ++ rest) offset count = readAt first offset count := by
  by_cases empty : count = 0
  · simp [readAt, empty]
  · refine readAt_append_left ?_
    simp only [readAt, List.length_take, List.length_drop] at full
    omega

theorem readAt_append_right (first rest : Bytes) (offset count : Nat) :
    readAt (first ++ rest) (first.length + offset) count = readAt rest offset count := by
  unfold readAt
  rw [← List.drop_drop, List.drop_left]

theorem readAt_append_right' {first : Bytes} {start : Nat} (startEq : start = first.length)
    (rest : Bytes) (count : Nat) :
    readAt (first ++ rest) start count = rest.take count := by
  subst startEq
  simp [readAt]

/-- Reading exactly the field that starts at `start`. -/
theorem readAt_field {before field : Bytes} {start count : Nat} (startEq : start = before.length)
    (countEq : count = field.length) (after : Bytes) :
    readAt (before ++ (field ++ after)) start count = field := by
  rw [readAt_append_right' startEq, countEq, List.take_left]

theorem length_readAt (contents : Bytes) (offset count : Nat) :
    (readAt contents offset count).length = min count (contents.length - offset) := by
  simp [readAt]

/-- A read inside a read. -/
theorem readAt_readAt {contents : Bytes} {first second start count : Nat}
    (inside : start + count ≤ second) :
    readAt (readAt contents first second) start count = readAt contents (first + start) count := by
  simp only [readAt, List.drop_take, List.take_take, List.drop_drop]
  rw [Nat.min_eq_left (by omega)]

/-! ## Writes -/

/-- Writing at the end appends. -/
theorem writeAt_end {contents : Bytes} {offset : Nat} (atEnd : offset = contents.length)
    (data : Bytes) : writeAt contents offset data = contents ++ data := by
  subst atEnd
  by_cases empty : data = []
  · simp [writeAt, empty]
  · simp [writeAt, empty, List.drop_eq_nil_of_le]

/-- Writing inside the file replaces exactly the bytes covered. -/
theorem writeAt_middle {before old after data : Bytes} {offset : Nat}
    (start : offset = before.length) (sameLength : data.length = old.length) :
    writeAt (before ++ (old ++ after)) offset data = before ++ (data ++ after) := by
  subst start
  by_cases empty : data = []
  · have oldEmpty : old = [] := List.length_eq_zero_iff.mp (by simpa [empty] using sameLength.symm)
    simp [writeAt, empty, oldEmpty]
  · have noGap : before.length - (before ++ (old ++ after)).length = 0 := by
      simp
    have tail : (before ++ (old ++ after)).drop (before.length + data.length) = after := by
      rw [← List.drop_drop, List.drop_left, sameLength, List.drop_left]
    rw [writeAt, if_neg empty, noGap, tail, List.take_left]
    simp

theorem length_writeAt_inside {contents data : Bytes} {offset : Nat}
    (inside : offset + data.length ≤ contents.length) :
    (writeAt contents offset data).length = contents.length := by
  unfold writeAt
  split
  · rfl
  · simp
    omega

/-- A write never shortens a file. -/
theorem length_le_writeAt (contents : Bytes) (offset : Nat) (data : Bytes) :
    contents.length ≤ (writeAt contents offset data).length := by
  unfold writeAt
  split
  · rfl
  · simp
    omega

/-- A write inside the first part of a file leaves the second part alone. -/
theorem writeAt_append_left {first data : Bytes} {offset : Nat}
    (inside : offset + data.length ≤ first.length) (rest : Bytes) :
    writeAt (first ++ rest) offset data = writeAt first offset data ++ rest := by
  unfold writeAt
  split
  · rfl
  · rw [List.take_append_of_le_length (by omega), List.drop_append_of_le_length inside]
    have noGap : offset - (first ++ rest).length = offset - first.length := by
      rw [List.length_append]
      omega
    rw [noGap]
    simp

/-- A write behind the first part of a file leaves that part alone. -/
theorem writeAt_append_right (first rest : Bytes) (offset : Nat) (data : Bytes) :
    writeAt (first ++ rest) (first.length + offset) data = first ++ writeAt rest offset data := by
  unfold writeAt
  split
  · rfl
  · rw [List.take_length_add_append, Nat.add_assoc, List.drop_length_add_append,
      List.length_append, Nat.add_sub_add_left]
    simp

/-! ## Writes under an environment -/

variable {σ : Type}

/-- Write `data` at `offset`.  Returns the contents after the write together
with the error it reports, if any: a write past `maxSize` does nothing, and a
write the environment cuts short leaves the bytes written so far. -/
def write (contents : Bytes) (offset : Nat) (data : Bytes) : Exec σ (Bytes × Option String) :=
  fun state faults =>
    if offset + data.length ≤ maxSize then
      match faults with
      | [] => ⟨.ok (writeAt contents offset data, none), state, [], false⟩
      | .complete :: rest => ⟨.ok (writeAt contents offset data, none), state, rest, false⟩
      | .cut written :: rest =>
          ⟨.ok (writeAt contents offset (data.take written), some "input/output error"),
            state, rest, true⟩
    else ⟨.ok (contents, some "file too large"), state, faults.tail, true⟩

/-- An undisturbed write is complete and stays within the size limit. -/
theorem bind_write {α : Type} {contents : Bytes} {offset : Nat} {data : Bytes} {room : Prop}
    {start : σ} {next : Bytes × Option String → Exec σ α} {post : α → σ → Prop}
    (roomy : room → offset + data.length ≤ maxSize)
    (rest : offset + data.length ≤ maxSize →
      (next (writeAt contents offset data, none)).Returns room start post) :
    (write contents offset data >>= next).Returns room start post := by
  refine .through (fun result state =>
    state = start ∧ result = (writeAt contents offset data, none) ∧
      offset + data.length ≤ maxSize) ⟨?_, ?_⟩ ?_
  · intro faults clean
    unfold write at clean ⊢
    by_cases fits : offset + data.length ≤ maxSize
    · rw [if_pos fits] at clean ⊢
      cases faults with
      | nil => exact ⟨_, rfl, rfl, rfl, fits⟩
      | cons fault rest =>
          cases fault with
          | complete => exact ⟨_, rfl, rfl, rfl, fits⟩
          | cut written => simp at clean
    · rw [if_neg fits] at clean
      simp at clean
  · intro enough
    rw [write, if_pos (roomy enough)]
    exact ⟨rfl, rfl⟩
  · rintro _ _ ⟨rfl, rfl, fits⟩
    exact rest fits

/-- A write that the environment carries out. -/
theorem write_complete {contents : Bytes} {offset : Nat} {data : Bytes} {faults : List Fault}
    (fits : offset + data.length ≤ maxSize)
    (complete : ∀ fault, faults.head? = some fault → fault = .complete) (state : σ) :
    write contents offset data state faults =
      ⟨.ok (writeAt contents offset data, none), state, faults.tail, false⟩ := by
  unfold write
  rw [if_pos fits]
  cases faults with
  | nil => rfl
  | cons fault rest =>
      rw [complete fault rfl]
      rfl

end BriseDB.File
