import BriseDB.Base.TableLoops
import BriseDB.Store.Calls

/-!
# Sequential runs

A run is a sequence of events at readings of the clock: calls of any number of
sessions, and rounds of the background work.  `Event.run_returns` says once what
an event does, and `History.induction` is the induction over the runs of a new
database; results about whole runs are derived from the two.
-/

namespace BriseDB

open DB (Stepped Compacted)

/-- The shared database and the stacks of the sessions. -/
structure World where
  db : DB
  sessions : Nat → List Transaction

/-- One step of a run. -/
inductive Event where
  | call (session : Nat) (call : Call)
  | evict (order : Fin numShards → RangeOrder Key)
  | compact (indexOrder logOrder : RangeOrder Key)
  | flush

namespace World

/-- A database that has just been opened, with no transaction open. -/
def ofDB (db : DB) : World :=
  ⟨db, fun _ => []⟩

/-- Let a session make a call. -/
def onSession {α : Type} (session : Nat) (call : Exec Session α) : Exec World α :=
  Exec.zoom (fun w => ⟨w.db, w.sessions session⟩)
    (fun s w => ⟨s.db, Function.update w.sessions session s.transactions⟩) call

/-- Call the database. -/
def onDB {α : Type} (call : Exec DB α) : Exec World α :=
  Exec.zoom World.db (fun db w => { w with db := db }) call

/-- The largest volume id is not in use. -/
def IdsLeft (w : World) : Prop :=
  w.db.volumes.localVM.volumes.lookup VolumeManager.lastID = none

instance : DecidablePred IdsLeft :=
  fun _ => inferInstanceAs (Decidable (_ = _))

/-- The world stands for `rows`, and the keys in open transactions are short
enough. -/
structure Models (w : World) (rows : Rows) : Prop where
  db : w.db.Models rows
  fits : ∀ session, ∀ tx ∈ w.sessions session, tx.Fits

end World

namespace Event

/-- Carry out an event.  A call that returns an error does not end the run. -/
def run (now : Time) : Event → Exec World Unit
  | call session c => World.onSession session (Exec.attempt (c.run now)) >>= fun _ => pure ()
  | evict order => World.onDB (DB.evictExpired now order)
  | compact indexOrder logOrder =>
      World.onDB (Exec.attempt (DB.compact now indexOrder logOrder)) >>= fun _ => pure ()
  | flush => World.onDB DB.drain >>= fun _ => pure ()

/-- What is assumed of the arguments of an event. -/
def Fits : Event → Prop
  | call _ c => c.Fits
  | _ => True

instance : DecidablePred Fits
  | call _ c => inferInstanceAs (Decidable c.Fits)
  | evict _ | compact _ _ | flush => inferInstanceAs (Decidable True)

/-- Whether the event is a call of `SetBlobStream`. -/
def IsStream : Event → Prop
  | call _ c => c.IsStream
  | _ => False

instance : DecidablePred IsStream
  | call _ c => inferInstanceAs (Decidable c.IsStream)
  | evict _ | compact _ _ | flush => inferInstanceAs (Decidable False)

end Event

/-- A run of events at readings of the clock. -/
abbrev Run :=
  List (Clock × Event)

namespace Run

/-- Carry out a run. -/
def exec (run : Run) : Exec World Unit :=
  Exec.each run fun step => step.2.run step.1

end Run

/-! ## Merging transactions -/

namespace Transaction

variable {active parent : Transaction} {order : CommitOrder} {key : Key}

/-- A loop that works on each map by itself. -/
theorem foldl_maps {β : Type} (store : Table Key Bytes → β → Table Key Bytes)
    (deleted : Table Key Unit → β → Table Key Unit) (expiry : Table Key Time → β → Table Key Time)
    (entries : List β) (tx : Transaction) :
    entries.foldl (fun (tx : Transaction) entry =>
        ⟨store tx.store entry, deleted tx.deleted entry, expiry tx.expiry entry⟩) tx =
      ⟨entries.foldl store tx.store, entries.foldl deleted tx.deleted,
        entries.foldl expiry tx.expiry⟩ := by
  induction entries generalizing tx with
  | nil => rfl
  | cons entry rest ih => exact ih _

/-- The merge, map by map. -/
theorem mergeInto_eq (order : CommitOrder) (active parent : Transaction) :
    active.mergeInto order parent =
      { store := (active.deleted.range order.deleted).foldl
          (fun (table : Table Key Bytes) entry => table.erase entry.1)
          ((active.store.range order.store).foldl
            (fun (table : Table Key Bytes) entry => table.insert entry.1 entry.2) parent.store)
        deleted := (active.deleted.range order.deleted).foldl
          (fun (table : Table Key Unit) entry => table.insert entry.1 entry.2)
          ((active.store.range order.store).foldl
            (fun (table : Table Key Unit) entry => table.erase entry.1) parent.deleted)
        expiry := (active.expiry.range order.expiry).foldl
          (fun (table : Table Key Time) entry => table.insert entry.1 entry.2) parent.expiry } := by
  unfold mergeInto
  dsimp only
  rw [foldl_maps (fun table (entry : Key × Bytes) => table.insert entry.1 entry.2)
      (fun table entry => table.erase entry.1) (fun table _ => table),
    foldl_maps (fun table (entry : Key × Unit) => table.erase entry.1)
      (fun table entry => table.insert entry.1 ()) (fun table _ => table),
    foldl_maps (fun table _ => table) (fun table _ => table)
      (fun table (entry : Key × Time) => table.insert entry.1 entry.2)]
  simp only [List.foldl_fixed]

theorem mergeInto_store : (active.mergeInto order parent).store.lookup key =
    if (active.deleted.lookup key).isSome then none
    else (active.store.lookup key).or (parent.store.lookup key) := by
  rw [mergeInto_eq]
  dsimp only
  rw [Table.lookup_eraseAll, Table.lookup_insertAll]

theorem mergeInto_deleted : (active.mergeInto order parent).deleted.lookup key =
    (active.deleted.lookup key).or
      (if (active.store.lookup key).isSome then none else parent.deleted.lookup key) := by
  rw [mergeInto_eq]
  dsimp only
  rw [Table.lookup_insertAll, Table.lookup_eraseAll]

theorem mergeInto_expiry : (active.mergeInto order parent).expiry.lookup key =
    (active.expiry.lookup key).or (parent.expiry.lookup key) := by
  rw [mergeInto_eq]
  exact Table.lookup_insertAll _ _ _ _

end Transaction

/-! ## Transactions keep short keys -/

namespace Transaction

theorem fits_empty : empty.Fits := by
  intro key value found
  exact absurd found (by simp [empty])

theorem Fits.put {tx : Transaction} (fits : tx.Fits) {key : Key} (keyFits : key.length ≤ 65535)
    (value : Bytes) (expiry : Time) : (tx.put key value expiry).Fits := by
  intro other found isFound
  change (tx.store.insert key value).lookup other = some found at isFound
  by_cases same : other = key
  · exact same ▸ keyFits
  · rw [AList.lookup_insert_ne same] at isFound
    exact fits other found isFound

theorem Fits.remove {tx : Transaction} (fits : tx.Fits) (key : Key) : (tx.remove key).Fits := by
  intro other found isFound
  change (tx.store.erase key).lookup other = some found at isFound
  by_cases same : other = key
  · rw [same, AList.lookup_erase] at isFound
    cases isFound
  · rw [AList.lookup_erase_ne same] at isFound
    exact fits other found isFound

theorem Fits.mergeInto {active parent : Transaction} (order : CommitOrder) (fits : active.Fits)
    (parentFits : parent.Fits) : (active.mergeInto order parent).Fits := by
  intro key value found
  rw [mergeInto_store] at found
  split at found
  · cases found
  · rcases Option.or_eq_some_iff.mp found with inActive | ⟨_, inParent⟩
    · exact fits key value inActive
    · exact parentFits key value inParent

end Transaction

/-- Whether the call is given a value for the key. -/
def Call.Writes (key : Key) : Call → Prop
  | set written _ => written = key
  | setEX written _ _ => written = key
  | setBlob written _ _ => written = key
  | setBlobStream written _ _ _ => written = key
  | _ => False

/-- What holds of every open transaction after a call. -/
theorem Call.stack_all {P : Transaction → Prop} {call : Call} (empty : P .empty)
    (put : ∀ tx key value expiry, call.Writes key → P tx → P (tx.put key value expiry))
    (remove : ∀ tx key, P tx → P (tx.remove key))
    (persist : ∀ tx key, (tx.store.lookup key).isSome → P tx →
      P { tx with expiry := tx.expiry.insert key Time.zero })
    (merge : ∀ order active parent, P active → P parent → P (active.mergeInto order parent))
    (now : Time) {stack : List Transaction} (all : ∀ tx ∈ stack, P tx) :
    ∀ tx ∈ call.stack now stack, P tx := by
  cases stack with
  | nil =>
      cases call with
      | begin => simpa [Call.stack] using empty
      | _ => simp [Call.stack]
  | cons active rest =>
      have activeHolds : P active := all active List.mem_cons_self
      have restHold : ∀ tx ∈ rest, P tx := fun tx mem => all tx (List.mem_cons_of_mem _ mem)
      have replaced : ∀ changed : Transaction, P changed → ∀ tx ∈ changed :: rest, P tx :=
        fun changed holds => List.forall_mem_cons.mpr ⟨holds, restHold⟩
      cases call with
      | set key value => exact replaced _ (put active key value _ rfl activeHolds)
      | setEX key value ttl =>
          change ∀ tx ∈ (if ttl ≤ 0 then active :: rest else _), _
          split
          · exact all
          · exact replaced _ (put active key value _ rfl activeHolds)
      | delete key => exact replaced _ (remove active key activeHolds)
      | persist key =>
          change ∀ tx ∈ (if (active.store.lookup key).isSome then _ else active :: rest), _
          split
          · next isStored => exact replaced _ (persist active key isStored activeHolds)
          · exact all
      | begin => exact List.forall_mem_cons.mpr ⟨empty, all⟩
      | commit order =>
          cases rest with
          | nil => exact fun _ mem => absurd mem List.not_mem_nil
          | cons parent others =>
              have parentHolds := restHold parent List.mem_cons_self
              exact List.forall_mem_cons.mpr ⟨merge order active parent activeHolds parentHolds,
                fun tx mem => restHold tx (List.mem_cons_of_mem _ mem)⟩
      | rollback => exact restHold
      | setBlob => exact all
      | setBlobStream => exact all
      | get => exact all

theorem Call.stack_fits {call : Call} (fits : ∀ key, call.Writes key → key.length ≤ 65535)
    (now : Time) {stack : List Transaction} (txFits : ∀ tx ∈ stack, tx.Fits) :
    ∀ tx ∈ call.stack now stack, tx.Fits :=
  Call.stack_all Transaction.fits_empty
    (fun _ key value expiry written tx => Transaction.Fits.put tx (fits key written) value expiry)
    (fun _ key tx => Transaction.Fits.remove tx key) (fun _ _ _ tx => tx)
    (fun order _ _ active parent => Transaction.Fits.mergeInto order active parent) now txFits

theorem Call.Fits.writes {call : Call} (fits : call.Fits) :
    ∀ key, call.Writes key → key.length ≤ 65535 := by
  intro key written
  cases call with
  | set | setEX | setBlob =>
      obtain rfl := written
      exact fits
  | setBlobStream =>
      obtain rfl := written
      exact fits.1
  | _ => cases written

/-! ## What an event does -/

/-- What an event at `now` does to the map a world stands for, to the log and to the
replicas. -/
def Event.Outcome (now : Clock) (w next : World) (rows after : Rows) : Event → Prop
  | .call session c =>
      next.sessions = Function.update w.sessions session (c.stack now (w.sessions session)) ∧
        Stepped w.db next.db rows after (c.updates now rows.values (w.sessions session))
          (¬ c.IsPersist) (¬ c.IsPersist ∧ ¬ c.IsStream)
  | .evict order =>
      next.sessions = w.sessions ∧ after = rows.removeAll (w.db.evictions now order) ∧
        DB.Evicted w.db next.db rows (w.db.evictions now order)
  | .compact _ _ =>
      next.sessions = w.sessions ∧ after = rows.prune now ∧
        Compacted w.db next.db rows (Time.unixNano now)
  | .flush => next.sessions = w.sessions ∧ after = rows ∧ next.db = w.db.drained

theorem Clock.ofNano_unixNano (now : Clock) : Time.ofNano (Time.unixNano now) = now :=
  Time.ofNano_unixNano (le_trans (by norm_num) now.2.1) now.2.2

/-- Every event does what it is meant to. -/
theorem Event.run_returns {w : World} {rows : Rows} (models : w.Models rows) {event : Event}
    (fits : event.Fits) (idsLeft : event.IsStream → w.IdsLeft) (now : Clock) :
    (event.run now).Returns False w fun _ next =>
      ∃ after, next.Models after ∧ event.Outcome now w next rows after := by
  cases event with
  | call session c =>
      have called : (Exec.attempt (c.run now)).Returns False ⟨w.db, w.sessions session⟩ _ :=
        Call.run_returns models.db fits (models.fits session) idsLeft
      refine .bind_zoom called ?_
      rintro _ ⟨db, transactions⟩ ⟨stackEq, after, stepped⟩
      have stackFits := Call.stack_fits (Call.Fits.writes fits) now (models.fits session)
      rw [← show transactions = c.stack now (w.sessions session) from stackEq] at stackFits
      refine .pure ⟨after, ⟨stepped.models, fun other => ?_⟩, ?_, stepped⟩
      · change ∀ tx ∈ Function.update w.sessions session transactions other, tx.Fits
        by_cases same : other = session
        · subst same
          rw [Function.update_self]
          exact stackFits
        · rw [Function.update_of_ne same]
          exact models.fits other
      · exact congrArg (Function.update w.sessions session) stackEq
  | evict order =>
      have swept : (World.onDB (DB.evictExpired now order)).Returns False w _ :=
        Exec.Returns.zoom (DB.evictExpired_returns models.db now order False.elim)
      refine .mono swept ?_
      rintro _ _ ⟨db, rfl, evicted⟩
      have evictedAll := evicted
      obtain ⟨change, effect, rowsEq, _⟩ := evicted
      exact ⟨_, ⟨rowsEq ▸ effect.models, models.fits⟩, rfl, rfl, evictedAll⟩
  | compact indexOrder logOrder =>
      have compacted := DB.compact_returns models.db (Time.unixNano now.1) indexOrder logOrder
        False.elim
      rw [Clock.ofNano_unixNano] at compacted
      refine .bind_zoom (.attempt compacted) ?_
      rintro _ db ⟨_, _, done⟩
      have doneModels := done.models
      rw [Clock.ofNano_unixNano] at doneModels
      exact .pure ⟨_, ⟨doneModels, models.fits⟩, rfl, rfl, done⟩
  | flush =>
      refine .bind_zoom (DB.drain_returns models.db.logOK.writer_eq) ?_
      rintro _ _ ⟨_, rfl⟩
      exact .pure ⟨rows, ⟨(DB.drained_effect models.db).models, models.fits⟩, rfl, rfl, rfl⟩

/-! ## Histories of a new database -/

/-- A database is opened in a new directory and then runs. -/
structure History where
  opt : DBOptions
  remotes : List Remote
  volumeOrder : RangeOrder UInt32
  openedAt : Time
  keyOrder : RangeOrder Key
  openFaults : List Fault
  run : Run
  faults : List Fault

namespace History

/-- The database whose directory has been read but not recovered. -/
def start (h : History) : DB :=
  DB.start (.empty h.remotes) h.opt h.volumeOrder

/-- `NewBriseDB`. -/
def opened (h : History) : Out DB Unit :=
  DB.newBriseDB h.openedAt h.keyOrder h.start h.openFaults

/-- The run after it. -/
def out (h : History) : Out World Unit :=
  h.run.exec (World.ofDB h.opened.state) h.faults

/-- The world after the first steps. -/
def after (h : History) (before : Run) : World :=
  (before.exec (World.ofDB h.opened.state) h.faults).state

/-- The world at the end. -/
def final (h : History) : World :=
  h.after h.run

/-- Every step is taken in a world that meets the condition. -/
def Along (h : History) (condition : Clock × Event → World → Prop) : Prop :=
  ∀ before step later, h.run = before ++ step :: later → condition step (h.after before)

/-- No write fails, and the arguments are as assumed. -/
structure Regular (h : History) : Prop where
  opened : h.opened.failed = false
  ran : h.out.failed = false
  fits : ∀ step ∈ h.run, step.2.Fits

/-- The largest volume id is unused at the start and before every `SetBlobStream`. -/
structure IdsLeft (h : History) : Prop where
  start : (World.ofDB h.start).IdsLeft
  along : h.Along fun step w => step.2.IsStream → w.IdsLeft

/-- The volume servers, if there is a use for them, are in order. -/
def RemotesSound (h : History) : Prop :=
  1 < h.opt.replicationFactor → ∀ remote ∈ h.remotes, remote.server.Inv

theorem start_localVM (h : History) :
    h.start.volumes.localVM =
      VolumeManager.newVolumeManager (h.opt.extraDrives + 1) h.opt.maxVolumeSize ∅ := by
  obtain ⟨registry, nextID, eq⟩ := VolumePool.newVolumePool_eq
    (VolumeManager.newVolumeManager (h.opt.extraDrives + 1) h.opt.maxVolumeSize ∅) h.remotes ∅
    h.opt.replicationFactor h.opt.cacheSize h.volumeOrder
  exact congrArg VolumePool.localVM eq

/-- Opening gives a new database. -/
theorem opened_fresh {h : History} (sound : h.RemotesSound) (idsLeft : (World.ofDB h.start).IdsLeft)
    (clean : h.opened.failed = false) : DB.Fresh h.opened.state h.remotes h.opt := by
  have unused : h.start.volumes.localVM.volumes.lookup VolumeManager.lastID = none := idsLeft
  rw [start_localVM] at unused
  obtain ⟨_, _, fresh⟩ := (DB.newBriseDB_fresh h.openedAt h.volumeOrder h.keyOrder sound unused
    : Exec.Returns _ False h.start _).correct h.openFaults clean
  exact fresh

/-- Induction over the run of a new database. -/
theorem induction {h : History} (regular : h.Regular) (sound : h.RemotesSound)
    (idsLeft : h.IdsLeft) (inv : Run → World → Rows → Prop)
    (init : ∀ db, DB.Fresh db h.remotes h.opt → inv [] (World.ofDB db) fun _ => none)
    (step : ∀ before now event later next rows rows', h.run = before ++ (now, event) :: later →
      (h.after before).Models rows → inv before (h.after before) rows → next.Models rows' →
      event.Outcome now (h.after before) next rows rows' →
      inv (before ++ [(now, event)]) next rows') :
    h.out.res = .ok () ∧ ∃ rows, h.final.Models rows ∧ inv h.run h.final rows := by
  have fresh := opened_fresh sound idsLeft.start regular.opened
  refine @Exec.Returns.each_run _ _ _ False _ _
    (fun before w => ∃ rows, w.Models rows ∧ inv before w rows) _ ?_
    ⟨_, ⟨fresh.models, fun _ => nofun⟩, init _ fresh⟩ regular.ran
  rintro before ⟨now, event⟩ later split ⟨rows, models, holds⟩
  have isStep : (now, event) ∈ h.run := by simp [split]
  refine .mono (Event.run_returns models (regular.fits _ isStep)
    (idsLeft.along before _ later split) now) ?_
  rintro _ next ⟨rows', nextModels, outcome⟩
  exact ⟨rows', nextModels, step before now event later next rows rows' split models holds
    nextModels outcome⟩

/-- The same for the world after each of the steps. -/
theorem induction_along {h : History} (regular : h.Regular) (sound : h.RemotesSound)
    (idsLeft : h.IdsLeft) (inv : World → Prop)
    (init : ∀ db, DB.Fresh db h.remotes h.opt → inv (World.ofDB db))
    (step : ∀ now (event : Event) w next rows rows', w.Models rows → inv w →
      event.Outcome now w next rows rows' → inv next) {before later : Run}
    (split : h.run = before ++ later) :
    ∃ rows, (h.after before).Models rows ∧ inv (h.after before) := by
  let first : History := { h with run := before }
  have ran : (Exec.each h.run (fun step => step.2.run step.1) (World.ofDB h.opened.state)
    h.faults).failed = false := regular.ran
  rw [split] at ran
  have firstRegular : first.Regular :=
    ⟨regular.opened, Exec.each_failed_left ran, fun step mem => regular.fits step (by
      rw [split]
      exact List.mem_append_left later mem)⟩
  have firstLeft : first.IdsLeft := by
    refine ⟨idsLeft.start, fun earlier step rest isFirst => ?_⟩
    have isFirst : before = earlier ++ step :: rest := isFirst
    exact idsLeft.along earlier step (rest ++ later) (by simp [split, isFirst])
  exact (@induction first firstRegular sound firstLeft (fun _ w _ => inv w) init
    fun _ now event _ next rows rows' _ models holds _ outcome =>
      step now event _ next rows rows' models holds outcome).2

/-- The one step of a run is taken in the first world. -/
theorem along_single {h : History} {step : Clock × Event} (runEq : h.run = [step])
    {condition : Clock × Event → World → Prop} (holds : condition step (h.after [])) :
    h.Along condition := by
  intro before other later split
  rw [runEq] at split
  rcases before with _ | ⟨head, _ | ⟨next, more⟩⟩ <;> simp at split
  rw [← split.1]
  exact holds

/-- Without streams only the start matters. -/
theorem idsLeft_of_noStream {h : History} (left : (World.ofDB h.start).IdsLeft)
    (noStream : ∀ step ∈ h.run, ¬ step.2.IsStream) : h.IdsLeft :=
  ⟨left, fun _ step _ split isStream => absurd isStream (noStream step (by simp [split]))⟩

/-- A history with no volume servers and no faults. -/
def undisturbed (opt : DBOptions) (run : Run) : History where
  opt := opt
  remotes := []
  volumeOrder := .asStored _
  openedAt := 0
  keyOrder := .asStored _
  openFaults := []
  run := run
  faults := []

/-- A run without faults for which there is room. -/
theorem final_of_returns {h : History} (noFaults : h.faults = []) {post : World → Prop}
    (returns : h.run.exec.Returns True (World.ofDB h.opened.state) fun _ w => post w) :
    h.out.failed = false ∧ post h.final := by
  have ran : h.out.failed = false := by
    unfold History.out
    rw [noFaults]
    exact (returns.undisturbed trivial).1
  obtain ⟨_, _, holds⟩ := returns.correct _ ran
  exact ⟨ran, holds⟩

theorem opened_clean {h : History} (sound : h.RemotesSound)
    (idsLeft : (World.ofDB h.start).IdsLeft) (noFaults : h.openFaults = []) :
    h.opened.failed = false := by
  have unused : h.start.volumes.localVM.volumes.lookup VolumeManager.lastID = none := idsLeft
  rw [start_localVM] at unused
  have opens : Exec.Returns _ True h.start _ :=
    DB.newBriseDB_fresh h.openedAt h.volumeOrder h.keyOrder sound unused
  unfold History.opened
  rw [noFaults]
  exact (opens.undisturbed trivial).1

/-- An undisturbed history with one drive. -/
def Small (h : History) (mode : FsyncMode) : Prop :=
  h = undisturbed ⟨0, 0, 1, 0, mode⟩ h.run

namespace Small

variable {h : History} {mode : FsyncMode}

theorem idsLeft (small : h.Small mode) : (World.ofDB h.start).IdsLeft := by
  rw [small]
  change (World.ofDB (undisturbed ⟨0, 0, 1, 0, .no⟩ []).start).IdsLeft
  decide +kernel

theorem remotesSound (small : h.Small mode) : h.RemotesSound := by
  rw [small]
  exact fun _ _ mem => absurd mem List.not_mem_nil

theorem opened (small : h.Small mode) :
    h.opened.failed = false ∧ DB.Fresh h.opened.state [] ⟨0, 0, 1, 0, mode⟩ := by
  have clean := opened_clean small.remotesSound small.idsLeft (by rw [small]; rfl)
  have fresh := opened_fresh small.remotesSound small.idsLeft clean
  refine ⟨clean, ?_⟩
  rw [small] at fresh ⊢
  exact fresh

/-- What holds after a run for which there is room. -/
theorem final (small : h.Small mode) {post : World → Prop}
    (returns : ∀ db, DB.Fresh db [] ⟨0, 0, 1, 0, mode⟩ →
      h.run.exec.Returns True (World.ofDB db) fun _ w => post w) :
    h.opened.failed = false ∧ h.out.failed = false ∧ post h.final :=
  ⟨small.opened.1, final_of_returns (by rw [small]; rfl) (returns _ small.opened.2)⟩

end Small

end History

/-! ## Calls outside transactions -/

section Direct

variable {db : DB} {room : Prop} {post : DB → Prop} {now : Time} {key : Key}

/-- A call that a session without transactions passes on to the database. -/
def Call.Direct (c : Call) (now : Time) (room : Prop) (db : DB) (post : DB → Prop) : Prop :=
  (c.run now).Returns room ⟨db, []⟩ fun _ s => s.transactions = [] ∧ post s.db

theorem Call.direct_set {value : Bytes}
    (returns : (Session.setNow key value).Returns room db fun _ next => post next) :
    (Call.set key value).Direct now room db post :=
  .bind_state (.mono (.zoom returns)
    fun _ _ ⟨_, eq, holds⟩ => eq ▸ ⟨rfl, holds⟩)

theorem Call.direct_setEX {value : Bytes} {ttl : Int64} (positive : ¬ ttl ≤ 0)
    (returns : (Session.setEXNow key value (now + ttl.toInt)).Returns room db
      fun _ next => post next) :
    (Call.setEX key value ttl).Direct now room db post := by
  change (if ttl ≤ 0 then _ else _ : Exec Session Unit).Returns room _ _
  rw [if_neg positive]
  exact .bind_state (.mono (.zoom returns) fun _ _ ⟨_, eq, holds⟩ => eq ▸ ⟨rfl, holds⟩)

theorem Call.direct_persist
    (returns : (Session.persistLocked key).Returns room db fun _ next => post next) :
    (Call.persist key).Direct now room db post :=
  .bind (.bind_state (.zoom returns))
    fun _ _ ⟨_, eq, holds⟩ => .pure (eq ▸ ⟨rfl, holds⟩)

theorem Call.direct_setBlobStream {r : Reader} {size ttl : Int64}
    (returns : (Session.setBlobStreamNow key r size (Session.blobExpiry ttl now)).Returns room db
      fun _ next => post next) :
    (Call.setBlobStream key r size ttl).Direct now room db post := by
  have called : (Session.onDB (Session.setBlobStreamNow key r size
      (Session.blobExpiry ttl now))).Returns room ⟨db, []⟩ _ := .zoom returns
  exact .mono called fun _ _ ⟨_, eq, holds⟩ => eq ▸ ⟨rfl, holds⟩

theorem Call.Direct.event {c : Call} (direct : c.Direct now room db post) (session : Nat) :
    ((Event.call session c).run now).Returns room (World.ofDB db) fun _ w =>
      ∃ next, w = World.ofDB next ∧ post next := by
  refine .bind_zoom (.attempt direct) ?_
  rintro _ ⟨next, transactions⟩ ⟨_, _, rfl, holds⟩
  refine .pure ⟨next, ?_, holds⟩
  exact congrArg (World.mk next) (Function.update_eq_self session _)

/-- `Get` by a session without transactions. -/
theorem Session.get_res {rows : Rows} (models : db.Models rows) (key : Key) (now : Time) :
    (Session.get key now ⟨db, []⟩ []).res = .ok (DB.visible now (rows key)) := by
  have returns : (Session.get key now).Returns True ⟨db, []⟩ fun found _ =>
      found = DB.visible now (rows key) :=
    Exec.Returns.bind_state (.mono (.zoom
      (DB.getNow_returns models now)) fun _ _ ⟨_, _, foundEq, _⟩ => foundEq)
  rcases returns.correct [] (returns.undisturbed trivial).1 with ⟨_, resEq, rfl⟩
  exact resEq

/-- `Get` of an entry that has expired. -/
theorem Session.get_expired {rows : Rows} (models : db.Models rows) {addr : NeedleAddr}
    {expiresAt : Int64} (found : rows.content key = some (addr, expiresAt))
    (expired : Session.expiredAt now expiresAt) :
    (Session.get key now ⟨db, []⟩ []).res = .ok none := by
  rcases Rows.content_eq_some.mp found with ⟨row, isRow, entryEq⟩
  rw [← (Prod.mk.inj entryEq).2] at expired
  rw [Session.get_res models, isRow, DB.visible, if_pos expired]

/-- `TTL` by a session without transactions. -/
theorem Session.ttl_res {rows : Rows} (models : db.Models rows) (key : Key) (now : Time) :
    (Session.ttl key now ⟨db, []⟩ []).res = .ok (DB.rowTTL now (rows key)) := by
  have returns : (Session.ttl key now).Returns True ⟨db, []⟩ fun answer _ =>
      answer = DB.rowTTL now (rows key) :=
    Exec.Returns.bind_state (.mono (.zoom
      (DB.ttlNow_returns models now)) fun _ _ ⟨_, _, answerEq, _⟩ => answerEq)
  rcases returns.correct [] (returns.undisturbed trivial).1 with ⟨_, resEq, rfl⟩
  exact resEq

/-- What the database stores under a key: the value its index entry points to, and the
expiry of the entry. -/
def DB.stored (db : DB) (key : Key) : Res (Option (Bytes × Int64)) :=
  (Index.get db.hindex key).bind fun found =>
    match found with
    | none => .ok none
    | some (addr, expiresAt) =>
        (VolumePool.read addr db.volumes []).res.bind fun data => .ok (some (data, expiresAt))

theorem DB.stored_eq {rows : Rows} (models : db.Models rows) (key : Key) :
    db.stored key = .ok (rows.values key) := by
  unfold DB.stored Rows.values
  rw [DB.get_index_eq models key]
  cases isRow : rows key with
  | none => rfl
  | some row =>
      have returns : (VolumePool.read row.addr).Returns True db.volumes _ :=
        VolumePool.read_returns models.pool (models.holds key row isRow)
      rcases returns.correct [] (returns.undisturbed trivial).1 with ⟨_, resEq, rfl, -⟩
      change (VolumePool.read row.addr db.volumes []).res.bind _ = _
      rw [resEq]
      rfl

end Direct

end BriseDB
