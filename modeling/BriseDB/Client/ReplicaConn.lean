import Mathlib.Data.List.Basic

/-!
# The replica connection of the Python client

The constructor of `ReplicaConn` starts a thread that reads lines, puts the entries it
finds into a bounded queue and sets an event at `+READY` or when the connection ends.
The constructor waits for the event.  Only after it has returned is there anybody who
takes entries from the queue.

What a line stands for is left open: `parse` is any function that gives an entry, nothing,
or an exception.
-/

namespace BriseDB.ReplicaConn

/-- The `maxsize` of the queue. -/
def maxsize : Nat :=
  4096

/-- What the reader does with a line. -/
inductive Line (ε : Type) where
  | skip
  | ready
  | entry (e : ε)
  | raise

/-- Where the reader thread stands in `_read_loop`. -/
inductive Reader (ε : Type) where
  | reading (lines : List (List Char))
  | putting (e : ε) (lines : List (List Char))
  | leaving
  | closing
  | stopped

/-- The two threads, their event and their queue.  `none` in the queue marks its end. -/
structure State (ε : Type) where
  reader : Reader ε
  hasReturned : Bool
  isReady : Bool
  queue : List (Option ε)

/-- Whose turn it is: the reader, the constructor, or a consumer of the queue. -/
inductive Turn where
  | reader
  | constructor
  | consumer

section

variable {ε : Type} (parse : List Char → Except Unit (Option ε))

/-- The body of the loop of `_read_loop` up to the `put`. -/
def classify : List Char → Line ε
  | '+' :: payload =>
      if payload = ['R', 'E', 'A', 'D', 'Y'] then .ready
      else
        match parse payload with
        | .error _ => .raise
        | .ok none => .skip
        | .ok (some e) => .entry e
  | _ => .skip

namespace State

/-- A connection over which `lines` will come. -/
def start (lines : List (List Char)) : State ε :=
  ⟨.reading lines, false, false, []⟩

/-- One step of the reader.  `put` waits while the queue is full. -/
def read (s : State ε) : State ε :=
  match s.reader with
  | .reading [] => { s with reader := .leaving }
  | .reading (line :: rest) =>
      match classify parse line with
      | .skip => { s with reader := .reading rest }
      | .ready => { s with reader := .reading rest, isReady := true }
      | .entry e => { s with reader := .putting e rest }
      | .raise => { s with reader := .leaving }
  | .putting e rest =>
      if s.queue.length < maxsize then
        { s with reader := .reading rest, queue := s.queue ++ [some e] }
      else s
  | .leaving => { s with reader := .closing, isReady := true }
  | .closing =>
      if s.queue.length < maxsize then
        { s with reader := .stopped, queue := s.queue ++ [none] }
      else s
  | .stopped => s

/-- One step of either thread, or of a consumer, who comes into play when the constructor
has returned. -/
def step (s : State ε) : Turn → State ε
  | .reader => s.read parse
  | .constructor => if s.isReady then { s with hasReturned := true } else s
  | .consumer => if s.hasReturned then { s with queue := s.queue.tail } else s

/-- Any sequence of steps. -/
def run (s : State ε) (turns : List Turn) : State ε :=
  turns.foldl (step parse) s

/-- The reader waits for room in the queue and the constructor for the event. -/
def Stuck (s : State ε) : Prop :=
  (∃ e rest, s.reader = .putting e rest) ∧ maxsize ≤ s.queue.length ∧
    s.hasReturned = false ∧ s.isReady = false

end State

/-- The number of entries that come before the event is set. -/
def snapshotEntries : List (List Char) → Nat
  | [] => 0
  | line :: rest =>
      match classify parse line with
      | .skip => snapshotEntries rest
      | .ready => 0
      | .entry _ => snapshotEntries rest + 1
      | .raise => 0

/-! ## While the event is not set -/

/-- The number of entries that the reader has still to put before it sets the event;
none once it has gone past that. -/
def Reader.pending : Reader ε → Option Nat
  | .reading lines => some (snapshotEntries parse lines)
  | .putting _ lines => some (snapshotEntries parse lines + 1)
  | .leaving => some 0
  | .closing => none
  | .stopped => none

/-- Until the event is set, the constructor has not returned, and every entry is in the
queue or still to come. -/
def State.Filling (total : Nat) (s : State ε) : Prop :=
  s.isReady = false → s.hasReturned = false ∧
    ∃ count, s.reader.pending parse = some count ∧ s.queue.length + count = total

variable {parse} {s : State ε} {total : Nat}

theorem State.Filling.read (filling : s.Filling parse total) :
    (s.read parse).Filling parse total := by
  rcases s with ⟨reader, hasReturned, isReady, queue⟩
  cases reader with
  | reading lines =>
      cases lines with
      | nil => exact filling
      | cons line rest =>
          cases action : classify parse line with
          | skip =>
              simp only [State.read, action]
              simpa only [Filling, Reader.pending, snapshotEntries, action] using filling
          | ready =>
              simp only [State.read, action]
              intro notReady
              cases notReady
          | entry e =>
              simp only [State.read, action]
              simpa only [Filling, Reader.pending, snapshotEntries, action] using filling
          | raise =>
              simp only [State.read, action]
              simpa only [Filling, Reader.pending, snapshotEntries, action] using filling
  | putting e lines =>
      by_cases room : queue.length < maxsize
      · simp only [State.read, if_pos room]
        intro notReady
        rcases filling notReady with ⟨notReturned, _, isPending, countEq⟩
        cases isPending
        refine ⟨notReturned, _, rfl, ?_⟩
        rw [← countEq, List.length_append, List.length_singleton, Nat.add_assoc, Nat.add_comm 1]
      · simpa only [State.read, if_neg room] using filling
  | leaving =>
      intro notReady
      cases notReady
  | closing =>
      by_cases room : queue.length < maxsize
      · simp only [State.read, if_pos room]
        intro notReady
        rcases filling notReady with ⟨_, _, isPending, _⟩
        cases isPending
      · simpa only [State.read, if_neg room] using filling
  | stopped => exact filling

theorem State.Filling.step (filling : s.Filling parse total) (turn : Turn) :
    (s.step parse turn).Filling parse total := by
  cases turn with
  | reader => exact filling.read
  | constructor =>
      by_cases isReady : s.isReady = true
      · simp only [State.step, if_pos isReady]
        intro notReady
        cases isReady.symm.trans notReady
      · simpa only [State.step, if_neg isReady] using filling
  | consumer =>
      by_cases hasReturned : s.hasReturned = true
      · simp only [State.step, if_pos hasReturned]
        intro notReady
        cases hasReturned.symm.trans (filling notReady).1
      · simpa only [State.step, if_neg hasReturned] using filling

theorem State.Filling.run (filling : s.Filling parse total) (turns : List Turn) :
    (s.run parse turns).Filling parse total := by
  induction turns generalizing s with
  | nil => exact filling
  | cons turn rest ih => exact ih (filling.step turn)

/-- A stuck reader has an entry more than the queue has room for. -/
theorem State.Filling.lt_of_stuck (filling : s.Filling parse total) (stuck : s.Stuck) :
    maxsize < total := by
  rcases stuck with ⟨⟨e, rest, isPutting⟩, full, _, notReady⟩
  rcases filling notReady with ⟨_, count, isPending, countEq⟩
  rw [isPutting] at isPending
  cases isPending
  omega

/-! ## Running into the full queue -/

theorem State.run_cons (s : State ε) (turn : Turn) (turns : List Turn) :
    s.run parse (turn :: turns) = (s.step parse turn).run parse turns :=
  rfl

/-- A reader with more entries than there is room for gets stuck if only it runs. -/
theorem exists_stuck {lines : List (List Char)} {queue : List (Option ε)}
    (fits : queue.length ≤ maxsize)
    (tooMany : maxsize < queue.length + snapshotEntries parse lines) :
    ∃ turns, (State.run parse ⟨.reading lines, false, false, queue⟩ turns).Stuck := by
  induction lines generalizing queue with
  | nil => exact absurd fits (Nat.not_le.mpr tooMany)
  | cons line rest ih =>
      cases action : classify parse line with
      | skip =>
          simp only [snapshotEntries, action] at tooMany
          rcases ih fits tooMany with ⟨turns, stuck⟩
          refine ⟨.reader :: turns, ?_⟩
          simpa only [State.run_cons, State.step, State.read, action] using stuck
      | ready =>
          simp only [snapshotEntries, action] at tooMany
          exact absurd fits (Nat.not_le.mpr tooMany)
      | raise =>
          simp only [snapshotEntries, action] at tooMany
          exact absurd fits (Nat.not_le.mpr tooMany)
      | entry e =>
          simp only [snapshotEntries, action] at tooMany
          by_cases room : queue.length < maxsize
          · have longer : (queue ++ [some e]).length = queue.length + 1 := by simp
            rcases @ih (queue ++ [some e]) (by omega) (by omega) with ⟨turns, stuck⟩
            refine ⟨.reader :: .reader :: turns, ?_⟩
            simpa only [State.run_cons, State.step, State.read, action, if_pos room] using stuck
          · have stops : State.run parse ⟨.reading (line :: rest), false, false, queue⟩ [.reader] =
                ⟨.putting e rest, false, false, queue⟩ := by
              simp only [State.run, List.foldl_cons, List.foldl_nil, State.step, State.read, action]
            refine ⟨[.reader], ?_⟩
            rw [stops]
            exact ⟨⟨e, rest, rfl⟩, Nat.not_lt.mp room, rfl, rfl⟩

/-- The constructor and its reader can come to wait for each other exactly if more entries
come before `+READY` than the queue has room for. -/
theorem stuck_iff (lines : List (List Char)) :
    (∃ turns, (State.run parse (.start lines) turns).Stuck) ↔
      maxsize < snapshotEntries parse lines := by
  constructor
  · rintro ⟨turns, stuck⟩
    have filling : (State.start lines : State ε).Filling parse (snapshotEntries parse lines) :=
      fun _ => ⟨rfl, _, rfl, Nat.zero_add _⟩
    exact (filling.run turns).lt_of_stuck stuck
  · intro tooMany
    exact exists_stuck (Nat.zero_le _) (by simpa using tooMany)

/-- A snapshot of lines that all have an entry. -/
theorem snapshotEntries_replicate {line : List Char} {e : ε}
    (action : classify parse line = .entry e)
    (n : Nat) : snapshotEntries parse (List.replicate n line) = n := by
  induction n with
  | zero => rfl
  | succ n ih => simp only [List.replicate_succ, snapshotEntries, action, ih]

end

/-- A snapshot of 4097 entries is one too many. -/
theorem largeSnapshot_stuck :
    ∃ turns, (State.run (fun payload => .ok (some payload))
      (.start (List.replicate 4097 ['+', 'k'])) turns).Stuck := by
  refine exists_stuck (Nat.zero_le _) ?_
  rw [snapshotEntries_replicate rfl]
  decide

end BriseDB.ReplicaConn
