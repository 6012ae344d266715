import BriseDB.Store.Recovery

/-!
# The error cell of the log

With `FsyncEverySec` and `FsyncNo` a call of `writeWAL` does not wait for the
flusher.  A round of the flusher that fails stores its error in `walErr`, and the
next call loads it, clears the cell and returns it.  The cell is cleared with a
typed nil pointer, which is not the value of a cell that was never stored to.

Loading and clearing are two steps, so a `Writers` state has the calls that stand
between them.  `owed` records whether a failure has been stored since a call has
last loaded an error to return it; no step looks at it.
-/

namespace BriseDB

/-- How a call of `writeWAL` stands: it has not been made, it has loaded a stored
value and is about to clear the cell, or it has ended. -/
inductive WriteCall where
  | idle
  | clearing (stored : Option String)
  | ended (answer : Res Unit)

/-- The database with the calls of its writers. -/
structure Writers where
  db : DB
  calls : Nat → WriteCall
  owed : Bool

/-- One step: a call loads the cell, and enqueues its record if nothing was ever
stored there; a call clears the cell and ends; the flusher makes a round. -/
inductive WriteMove where
  | load (caller : Nat) (op : WalEntry)
  | clear (caller : Nat)
  | flush (faults : List Fault)

namespace Writers

/-- No call has been made. -/
def start (db : DB) : Writers :=
  ⟨db, fun _ => .idle, false⟩

/-- What a call that has found a stored value ends with. -/
def report : Option String → Res Unit
  | some cause => .err s!"write WAL: {cause}"
  | none => .panic "nil pointer dereference"

/-- A call loads the cell. -/
def load (caller : Nat) (op : WalEntry) (s : Writers) : Writers :=
  match s.db.walErr with
  | none =>
      { s with
        db := { s.db with walCh := s.db.walCh ++ [{ op with value := [] }] }
        calls := Function.update s.calls caller (.ended (.ok ())) }
  | some stored =>
      { s with
        calls := Function.update s.calls caller (.clearing stored)
        owed := s.owed && stored.isNone }

/-- A call that has loaded a stored value clears the cell and ends. -/
def clear (caller : Nat) (s : Writers) : Writers :=
  match s.calls caller with
  | .clearing stored =>
      { s with
        db := { s.db with walErr := some none }
        calls := Function.update s.calls caller (.ended (report stored)) }
  | _ => s

/-- The flusher makes a round. -/
def flush (faults : List Fault) (s : Writers) : Writers :=
  let out := DB.drain s.db faults
  { s with
    db := out.state
    owed :=
      match out.res with
      | .ok (.error _) => true
      | _ => s.owed }

/-- Carry out a step. -/
def step (s : Writers) : WriteMove → Writers
  | .load caller op => s.load caller op
  | .clear caller => s.clear caller
  | .flush faults => s.flush faults

/-- Carry out steps one after the other. -/
def run (moves : List WriteMove) (s : Writers) : Writers :=
  moves.foldl step s

theorem run_concat (moves : List WriteMove) (move : WriteMove) (s : Writers) :
    run (moves ++ [move]) s = (run moves s).step move := by
  simp [run]

/-- `writeWAL` is the two steps of a call, one after the other. -/
theorem writeWAL_eq {s : Writers} (mode : s.db.fsyncMode ≠ .always) (caller : Nat)
    (op : WalEntry) (faults : List Fault) :
    ((s.load caller op).clear caller).calls caller = .ended (DB.writeWAL op s.db faults).res ∧
      ((s.load caller op).clear caller).db = (DB.writeWAL op s.db faults).state := by
  unfold DB.writeWAL
  rw [Exec.bind_state_apply]
  simp only [if_neg mode, load]
  cases stored : s.db.walErr with
  | none => exact ⟨by simp [clear, Exec.put], by simp [clear, Exec.put]⟩
  | some value =>
      cases value <;>
        simp [clear, report, bind, Exec.bind, Exec.put, Exec.throw, Exec.panic]

end Writers

namespace DB

/-- Writing a batch ends with a value or an error, and touches neither the mode nor
the error cell. -/
theorem flushBatch_walErr (batch : List WalEntry) (db : DB) (faults : List Fault) :
    (flushBatch batch db faults).state.fsyncMode = db.fsyncMode ∧
      (flushBatch batch db faults).state.walErr = db.walErr ∧
      ((flushBatch batch db faults).res = .ok () ∨
        ∃ cause, (flushBatch batch db faults).res = .err cause) := by
  unfold flushBatch
  rw [Exec.bind_state_apply]
  cases db.walWriterErr with
  | some cause => exact ⟨rfl, rfl, .inr ⟨cause, rfl⟩⟩
  | none =>
      rcases faults with _ | ⟨_ | count, rest⟩
      · by_cases always : db.fsyncMode = .always
        · simp [bind, Exec.bind, Exec.outcome, Exec.put, Exec.modify, always]
        · simp [bind, Exec.bind, Exec.outcome, Exec.put, pure, Exec.ret, always]
      · by_cases always : db.fsyncMode = .always
        · rcases rest with _ | ⟨_ | count, rest⟩ <;>
            simp [bind, Exec.bind, Exec.outcome, Exec.put, Exec.modify, Exec.throw, always]
        · simp [bind, Exec.bind, Exec.outcome, Exec.put, pure, Exec.ret, always]
      · exact ⟨rfl, rfl, .inr ⟨_, rfl⟩⟩

/-- A round of the flusher stores an error exactly if it fails, and keeps the mode. -/
theorem drain_walErr (db : DB) (faults : List Fault) :
    (drain db faults).state.fsyncMode = db.fsyncMode ∧
      (((drain db faults).res = .ok (.ok ()) ∧ (drain db faults).state.walErr = db.walErr) ∨
        ∃ cause, (drain db faults).res = .ok (.error cause) ∧
          (drain db faults).state.walErr = some (some cause)) := by
  unfold drain
  rw [Exec.bind_state_apply]
  cases db.walCh with
  | nil => exact ⟨rfl, .inl ⟨rfl, rfl⟩⟩
  | cons e rest =>
      rcases flushBatch_walErr (e :: rest) { db with walCh := [] } faults with
        ⟨modeEq, cellEq, written | ⟨cause, failed⟩⟩
      · simp [bind, Exec.bind, Exec.put, Exec.attempt, written, pure, Exec.ret, modeEq, cellEq]
      · simp [bind, Exec.bind, Exec.put, Exec.attempt, failed, Exec.modify, pure, Exec.ret, modeEq]

end DB

namespace Writers

/-- No call stands between its two steps. -/
def Settled (s : Writers) : Prop :=
  ∀ caller stored, s.calls caller ≠ .clearing stored

end Writers

/-- What is assumed of a step: a call does not find a cell that another call has
cleared, and while a call stands between its two steps, no other call loads the cell
and no round of the flusher fails. -/
def WriteMove.Fair (s : Writers) : WriteMove → Prop
  | load _ _ => s.db.walErr ≠ some none ∧ s.Settled
  | clear _ => True
  | flush faults => s.Settled ∨ (faults = [] ∧ s.db.walWriterErr = none)

namespace Writers

/-- What a call answers: nil, or an error the flusher has stored. -/
def Answers : Res Unit → Prop
  | .ok _ => True
  | .err _ => True
  | _ => False

/-- The cell has an error exactly if one is owed to the writers or about to be
returned by the one call that has loaded it. -/
structure Coherent (s : Writers) : Prop where
  mode : s.db.fsyncMode ≠ .always
  owed_iff : s.Settled → (s.owed = true ↔ ∃ cause, s.db.walErr = some (some cause))
  clearing : ∀ caller stored, s.calls caller = .clearing stored →
    s.owed = false ∧ (∃ cause, stored = some cause) ∧
      ∀ other taken, s.calls other = .clearing taken → other = caller
  answers : ∀ caller answer, s.calls caller = .ended answer → Answers answer

variable {s : Writers}

theorem coherent_start {db : DB} (mode : db.fsyncMode ≠ .always) (healthy : db.walErr = none) :
    (start db).Coherent where
  mode := mode
  owed_iff _ := by simp [start, healthy]
  clearing _ _ isClearing := by cases isClearing
  answers _ _ isEnded := by cases isEnded

/-- Ending one call keeps what is known of the answers. -/
theorem Coherent.answers_update (coherent : s.Coherent) {caller : Nat} {call : WriteCall}
    (isAnswer : ∀ answer, call = .ended answer → Answers answer) (other : Nat) (answer : Res Unit)
    (found : Function.update s.calls caller call other = .ended answer) : Answers answer := by
  by_cases isCaller : other = caller
  · rw [isCaller, Function.update_self] at found
    exact isAnswer answer found
  · rw [Function.update_of_ne isCaller] at found
    exact coherent.answers other answer found

/-- A call that stands between its steps after the call of `caller` has changed is this
one, or stood there before. -/
theorem clearing_update {caller other : Nat} {call : WriteCall} {stored : Option String}
    (found : Function.update s.calls caller call other = .clearing stored) :
    (other = caller ∧ call = .clearing stored) ∨
      (other ≠ caller ∧ s.calls other = .clearing stored) := by
  by_cases isCaller : other = caller
  · rw [isCaller, Function.update_self] at found
    exact .inl ⟨isCaller, found⟩
  · rw [Function.update_of_ne isCaller] at found
    exact .inr ⟨isCaller, found⟩

/-- A call that finds nothing in the cell enqueues its record. -/
theorem Coherent.load_accepted (coherent : s.Coherent) (settled : s.Settled)
    (empty : s.db.walErr = none) (caller : Nat) (op : WalEntry) :
    (s.load caller op).Coherent ∧ s.owed = false ∧
      (s.load caller op).db.walCh = s.db.walCh ++ [{ op with value := [] }] ∧
      (s.load caller op).calls caller = .ended (.ok ()) := by
  have loadEq : s.load caller op =
      { s with
        db := { s.db with walCh := s.db.walCh ++ [{ op with value := [] }] }
        calls := Function.update s.calls caller (.ended (.ok ())) } := by
    simp only [load, empty]
  have notOwed : s.owed = false := by
    rw [Bool.eq_false_iff]
    intro owed
    rcases (coherent.owed_iff settled).mp owed with ⟨cause, stored⟩
    cases empty.symm.trans stored
  rw [loadEq]
  refine ⟨⟨coherent.mode, fun _ => coherent.owed_iff settled, ?_, ?_⟩, notOwed, rfl,
    Function.update_self ..⟩
  · intro other stored found
    rcases clearing_update found with ⟨-, isClearing⟩ | ⟨-, isClearing⟩
    · cases isClearing
    · exact absurd isClearing (settled other stored)
  · exact coherent.answers_update fun answer isEnded => by
      cases isEnded
      trivial

/-- A call that finds an error takes it. -/
theorem Coherent.load_refused (coherent : s.Coherent) (settled : s.Settled) {cause : String}
    (stored : s.db.walErr = some (some cause)) (caller : Nat) (op : WalEntry) :
    (s.load caller op).Coherent ∧ s.owed = true ∧ (s.load caller op).db = s.db ∧
      (s.load caller op).calls caller = .clearing (some cause) := by
  have owed : s.owed = true := (coherent.owed_iff settled).mpr ⟨cause, stored⟩
  have loadEq : s.load caller op =
      { s with
        calls := Function.update s.calls caller (.clearing (some cause))
        owed := false } := by
    simp [load, stored]
  rw [loadEq]
  refine ⟨⟨coherent.mode, fun nowSettled => ?_, ?_, ?_⟩, owed, rfl, Function.update_self ..⟩
  · exact absurd (Function.update_self ..) (nowSettled caller (some cause))
  · intro other taken found
    rcases clearing_update found with ⟨rfl, isClearing⟩ | ⟨-, isClearing⟩
    · refine ⟨rfl, ⟨cause, by cases isClearing; rfl⟩, fun another value alsoFound => ?_⟩
      rcases clearing_update alsoFound with ⟨same, -⟩ | ⟨-, isClearing⟩
      · exact same
      · exact absurd isClearing (settled another value)
    · exact absurd isClearing (settled other taken)
  · exact coherent.answers_update fun answer isEnded => by cases isEnded

/-- A call that clears the cell ends with the error it has loaded. -/
theorem Coherent.clear (coherent : s.Coherent) (caller : Nat) : (s.clear caller).Coherent := by
  unfold Writers.clear
  split
  · next stored isClearing =>
    rcases coherent.clearing caller stored isClearing with ⟨notOwed, ⟨cause, rfl⟩, alone⟩
    refine ⟨coherent.mode, fun _ => by simp [notOwed], ?_, ?_⟩
    · intro other taken found
      rcases clearing_update found with ⟨-, isEnded⟩ | ⟨isOther, isClearing⟩
      · cases isEnded
      · exact absurd (alone other taken isClearing) isOther
    · exact coherent.answers_update fun answer isEnded => by
        cases isEnded
        trivial
  · exact coherent

/-- A round that fails stores an error, and any other one leaves the cell alone. -/
theorem Coherent.flush (coherent : s.Coherent) {faults : List Fault}
    (fair : (WriteMove.flush faults).Fair s) : (s.flush faults).Coherent := by
  rcases DB.drain_walErr s.db faults with ⟨modeEq, outcome⟩
  have mode : (DB.drain s.db faults).state.fsyncMode ≠ .always :=
    fun always => coherent.mode (modeEq.symm.trans always)
  rcases outcome with ⟨written, cellEq⟩ | ⟨cause, failed, stored⟩
  · have flushEq : s.flush faults = { s with db := (DB.drain s.db faults).state } := by
      simp only [Writers.flush, written]
    rw [flushEq]
    refine ⟨mode, fun settled => ?_, coherent.clearing, coherent.answers⟩
    change s.owed = true ↔ ∃ cause, (DB.drain s.db faults).state.walErr = some (some cause)
    rw [cellEq]
    exact coherent.owed_iff settled
  · have settled : s.Settled := by
      rcases fair with settled | ⟨rfl, healthy⟩
      · exact settled
      · have returns : DB.drain.Returns True s.db _ := DB.drain_returns healthy
        rcases returns.correct [] (returns.undisturbed trivial).1 with ⟨result, resEq, isOk, -⟩
        rw [isOk, failed] at resEq
        cases resEq
    have flushEq : s.flush faults =
        { s with db := (DB.drain s.db faults).state, owed := true } := by
      simp only [Writers.flush, failed]
    rw [flushEq]
    refine ⟨mode, fun _ => ⟨fun _ => ⟨cause, stored⟩, fun _ => rfl⟩, ?_, coherent.answers⟩
    intro caller taken isClearing
    exact absurd isClearing (settled caller taken)

/-- No step that meets the conditions leaves the coherent states. -/
theorem Coherent.step (coherent : s.Coherent) {move : WriteMove} (fair : move.Fair s) :
    (s.step move).Coherent := by
  cases move with
  | load caller op =>
      rcases fair with ⟨fresh, settled⟩
      cases cell : s.db.walErr with
      | none => exact (coherent.load_accepted settled cell caller op).1
      | some stored =>
          cases stored with
          | none => exact absurd cell fresh
          | some cause => exact (coherent.load_refused settled cell caller op).1
  | clear caller => exact coherent.clear caller
  | flush faults => exact coherent.flush fair

/-- Nor does any run of such steps. -/
theorem Coherent.run {moves : List WriteMove} (coherent : s.Coherent)
    (fair : ∀ before move later, moves = before ++ move :: later →
      move.Fair (Writers.run before s)) : (Writers.run moves s).Coherent := by
  induction moves using List.reverseRecOn with
  | nil => exact coherent
  | append_singleton moves move ih =>
      rw [run_concat]
      apply Coherent.step
      · apply ih
        intro before earlier later split
        exact fair before earlier (later ++ [move]) (by simp [split])
      · exact fair moves move [] rfl

/-- A call loads an error exactly if one is owed, enqueues its record otherwise, ends with the
error it has loaded, and never panics. -/
theorem writeWAL_exact {db : DB} (mode : db.fsyncMode ≠ .always) (healthy : db.walErr = none)
    (moves : List WriteMove)
    (fair : ∀ before move later, moves = before ++ move :: later →
      move.Fair (run before (start db))) :
    (∀ before caller op later, moves = before ++ .load caller op :: later →
      if (run before (start db)).owed then
        (run (before ++ [.load caller op]) (start db)).db = (run before (start db)).db ∧
          ∃ cause, (run (before ++ [.load caller op]) (start db)).calls caller =
            .clearing (some cause)
      else
        (run (before ++ [.load caller op]) (start db)).db.walCh =
            (run before (start db)).db.walCh ++ [{ op with value := [] }] ∧
          (run (before ++ [.load caller op]) (start db)).calls caller = .ended (.ok ())) ∧
      (∀ before caller cause, (run before (start db)).calls caller = .clearing (some cause) →
        (run (before ++ [.clear caller]) (start db)).calls caller =
          .ended (.err s!"write WAL: {cause}")) ∧
      ∀ caller answer, (run moves (start db)).calls caller = .ended answer →
        Answers answer := by
  have coherent := coherent_start mode healthy
  refine ⟨fun before caller op later split => ?_, fun before caller cause isClearing => ?_,
    (coherent.run fair).answers⟩
  rotate_left
  · rw [run_concat]
    simp only [step, clear, isClearing, report, Function.update_self]
  have reached : (run before (start db)).Coherent := by
    apply coherent.run
    intro earlier move rest splitBefore
    exact fair earlier move (rest ++ .load caller op :: later) (by simp [split, splitBefore])
  rcases fair before (.load caller op) later split with ⟨fresh, settled⟩
  rw [run_concat]
  cases cell : (run before (start db)).db.walErr with
  | none =>
      rcases reached.load_accepted settled cell caller op with ⟨-, notOwed, queued, ended⟩
      rw [notOwed, if_neg Bool.false_ne_true]
      exact ⟨queued, ended⟩
  | some stored =>
      cases stored with
      | none => exact absurd cell fresh
      | some cause =>
          rcases reached.load_refused settled cell caller op with ⟨-, owed, dbEq, clearing⟩
          rw [owed, if_pos rfl]
          exact ⟨dbEq, cause, clearing⟩

/-- A new database that does not wait for its log. -/
def unsynced : Writers :=
  start (DB.start (DB.Directory.empty []) ⟨0, 0, 1, 0, .no⟩ (.asStored _))

/-- A record is enqueued, writing it fails, and the next call returns the error. -/
def oneFailure : List WriteMove :=
  [.load 0 (.ofDelete [107]), .flush [.cut 0], .load 1 (.ofDelete [107]), .clear 1]

theorem oneFailure_fair : ∀ before move later, oneFailure = before ++ move :: later →
    move.Fair (run before unsynced) := by
  have settled : unsynced.Settled := fun _ _ isClearing => by cases isClearing
  have enqueued : (unsynced.step (.load 0 (.ofDelete [107]))).Settled := by
    intro caller stored found
    rcases clearing_update found with ⟨-, isEnded⟩ | ⟨-, isClearing⟩
    · cases isEnded
    · cases isClearing
  have notCleared : unsynced.db.walErr ≠ some none := by
    intro cleared
    cases cleared
  have storedError : ((unsynced.step (.load 0 (.ofDelete [107]))).step
      (.flush [.cut 0])).db.walErr ≠ some none := by
    intro cleared
    cases cleared
  unfold oneFailure
  refine Exec.forall_splits_cons ⟨notCleared, settled⟩ ?_
  refine Exec.forall_splits_cons (.inl enqueued) ?_
  refine Exec.forall_splits_cons ⟨storedError, enqueued⟩ ?_
  exact Exec.forall_splits_cons trivial Exec.forall_splits_nil

theorem writeWAL_exact_oneFailure :
    (run oneFailure unsynced).calls 1 = .ended (.err "write WAL: write wal.log") ∧
      (∀ caller answer, (run oneFailure unsynced).calls caller = .ended answer →
        Answers answer) := by
  have mode : unsynced.db.fsyncMode ≠ .always := by decide
  exact ⟨rfl, (writeWAL_exact mode rfl oneFailure oneFailure_fair).2.2⟩

/-- The call that follows a reported error panics. -/
theorem writeWAL_panics :
    (run (oneFailure ++ [.load 1 (.ofDelete [107]), .clear 1]) unsynced).calls 1 =
      .ended (.panic "nil pointer dereference") :=
  rfl

end Writers

end BriseDB
