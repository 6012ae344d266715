import Mathlib.Data.List.Basic

/-!
# Chains in an append-only log

Records are appended to a log one after the other.  Each record belongs to a
bucket and stores the position of the record of the same bucket that was newest
when it was written, 0 if there was none.  A log is given newest record first,
so its tail is the log as it was before the newest record was written.

`head` is the position of the newest record of a bucket.  Following the links
from there visits exactly the records of that bucket, newest first; `head_cases`
is the step of every such walk.
-/

namespace BriseDB.Chain

variable {ε : Type} (base : Nat) (size bucket next : ε → Nat)

/-- Number of bytes the log takes. -/
def span : List ε → Nat
  | [] => 0
  | record :: older => size record + span older

/-- Position of the newest record of a bucket, 0 if it has none. -/
def head (slot : Nat) : List ε → Nat
  | [] => 0
  | record :: older => if bucket record = slot then base + span size older else head slot older

/-- Every record links to the record of its bucket that was newest before it. -/
def Linked : List ε → Prop
  | [] => True
  | record :: older => next record = head base size bucket (bucket record) older ∧ Linked older

variable {base size bucket next}

theorem span_append (newer older : List ε) :
    span size (newer ++ older) = span size newer + span size older := by
  induction newer with
  | nil => simp [span]
  | cons record newer ih => simp [span, ih, Nat.add_assoc]

theorem head_le {slot : Nat} (log : List ε) :
    head base size bucket slot log ≤ base + span size log := by
  induction log with
  | nil => simp [head]
  | cons record older ih =>
      rw [head, span]
      split <;> omega

theorem head_lt (basePositive : 0 < base) (positive : ∀ record, 0 < size record) {slot : Nat}
    (log : List ε) : head base size bucket slot log < base + span size log := by
  induction log with
  | nil => simpa [head, span] using basePositive
  | cons record older ih =>
      have sizePositive := positive record
      rw [head, span]
      split <;> omega

theorem Linked.older {newer older : List ε}
    (linked : Linked base size bucket next (newer ++ older)) :
    Linked base size bucket next older := by
  induction newer with
  | nil => exact linked
  | cons record newer ih => exact ih linked.2

/-- A bucket is empty, or its head is the position of its newest record, whose
link is the head of the bucket in the log before that record. -/
theorem head_cases {log : List ε} (linked : Linked base size bucket next log) (slot : Nat) :
    (head base size bucket slot log = 0 ∧ ∀ record ∈ log, bucket record ≠ slot) ∨
      ∃ newer record older, log = newer ++ record :: older ∧ bucket record = slot ∧
        (∀ other ∈ newer, bucket other ≠ slot) ∧
        head base size bucket slot log = base + span size older ∧
        next record = head base size bucket slot older := by
  induction log with
  | nil => exact .inl ⟨rfl, by simp⟩
  | cons record older ih =>
      by_cases same : bucket record = slot
      · refine .inr ⟨[], record, older, rfl, same, by simp, by simp [head, same], ?_⟩
        rw [linked.1, same]
      · rcases ih linked.2 with ⟨headEq, others⟩ |
          ⟨newer, found, rest, rfl, foundSlot, others, headEq, link⟩
        · refine .inl ⟨by simp [head, same, headEq], ?_⟩
          intro other mem
          rcases List.mem_cons.mp mem with rfl | mem
          · exact same
          · exact others other mem
        · refine .inr ⟨record :: newer, found, rest, rfl, foundSlot, ?_, ?_, link⟩
          · intro other mem
            rcases List.mem_cons.mp mem with rfl | mem
            · exact same
            · exact others other mem
          · simp [head, same, headEq]

end BriseDB.Chain
