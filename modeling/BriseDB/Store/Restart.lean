import BriseDB.Store.RedoLog

/-!
# Closing a database and opening it again

`Close` writes what is queued and stores the entry count in the index.  The next
`NewBriseDB` takes the index over if that count is not zero, and otherwise
replays the log on top of it.  The second path gives the same answers if the log
is complete.  `Persist` makes it incomplete until a compaction rewrites it.  A
compaction that begins while records are queued may garble the log: the flusher
appends to it while it is rewritten.
-/

namespace BriseDB

open Index (FileHolds)

namespace DB

section

variable {db : DB} {rows : Rows} {room : Prop}

/-! ## Closing -/

/-- The files of `db` after `Close`. -/
structure ClosedFrom (db closed : DB) (rows : Rows) : Prop where
  file_eq : closed.walFile = db.log
  volumes_eq : closed.volumes = { db.volumes with registryFile := db.volumes.registry }
  fileHolds : FileHolds closed.hindex rows.content db.hindex.entryCount
  length_eq : closed.hindex.f.length = db.hindex.f.length

theorem close_returns (models : db.Models rows) :
    close.Returns room db fun _ closed => ClosedFrom db closed rows := by
  unfold close
  refine .bind (drain_returns models.logOK.writer_eq) ?_
  rintro _ _ ⟨rfl, rfl⟩
  refine .bind_attempt (.zoom VolumePool.writeRegistrySnap_returns) ?_
  rintro _ _ ⟨_, rfl, rfl⟩
  refine .mono (.zoom models.index.close) ?_
  rintro _ _ ⟨hindex, rfl, fileHolds, lengthEq⟩
  exact ⟨rfl, rfl, fileHolds, lengthEq⟩

/-- Reading the directory of a closed database. -/
theorem ClosedFrom.restart {closed : DB} (closes : ClosedFrom db closed rows)
    (models : db.Models rows) {opt : DBOptions}
    (sameDrives : db.volumes.localVM.drives = opt.extraDrives + 1)
    (remotesInv : 1 < opt.replicationFactor → ∀ remote ∈ db.volumes.remotes, remote.server.Inv)
    (order : RangeOrder UInt32) :
    (start closed.directory opt order).Closed ∧
      (start closed.directory opt order).StartedFrom closed.directory opt ∧
      (∀ addr data, db.volumes.localVM.Holds addr data →
        (start closed.directory opt order).volumes.localVM.Holds addr data) ∧
      ∀ bytes, db.volumes.Room bytes → (start closed.directory opt order).volumes.Room bytes := by
  have filesEq : closed.directory.volumes = db.volumes.localVM.files := by
    rw [directory, closes.volumes_eq]
  have remotesEq : closed.directory.remotes = db.volumes.remotes := by
    rw [directory, closes.volumes_eq]
  obtain ⟨localInv, _, holds, roomy⟩ :=
    VolumeManager.newVolumeManager_files models.pool.localVM opt.maxVolumeSize
  rw [sameDrives, ← filesEq] at localInv holds roomy
  rcases start_closed localInv (by rw [remotesEq]; exact remotesInv) (by
    intro id g found
    rw [directory, closes.volumes_eq] at found
    exact (models.pool.group id g found).2) order with ⟨isClosed, started⟩
  refine ⟨isClosed, started, ?_, ?_⟩
  · rw [started.localVM_eq]
    exact holds
  · rintro bytes ⟨localRoom, remoteRoom⟩
    refine ⟨?_, ?_⟩
    · rw [started.localVM_eq]
      exact roomy bytes localRoom
    · rw [started.remotes_eq, remotesEq]
      exact remoteRoom

/-- Opening again with entries in the index. -/
theorem ClosedFrom.takesIndex {closed : DB} (closes : ClosedFrom db closed rows)
    (models : db.Models rows) {opt : DBOptions}
    (sameDrives : db.volumes.localVM.drives = opt.extraDrives + 1)
    (remotesInv : 1 < opt.replicationFactor → ∀ remote ∈ db.volumes.remotes, remote.server.Inv)
    (volumeOrder : RangeOrder UInt32) (keyOrder : RangeOrder Key)
    (counts : db.hindex.entryCount ≠ 0) (now : Clock) :
    (newBriseDB now keyOrder).Returns room (start closed.directory opt volumeOrder)
      fun _ next => next.Models rows := by
  rcases closes.restart models sameDrives remotesInv volumeOrder with ⟨isClosed, -, holds, -⟩
  rw [← Clock.ofNano_unixNano now]
  refine newBriseDB_takesIndex keyOrder isClosed ?_ counts fun key row isRow =>
    holds _ _ (models.holds key row isRow)
  exact closes.fileHolds

/-- Opening again without entries in the index. -/
theorem ClosedFrom.overlays {closed : DB} (closes : ClosedFrom db closed rows)
    (models : db.Models rows) {opt : DBOptions}
    (sameDrives : db.volumes.localVM.drives = opt.extraDrives + 1)
    (remotesInv : 1 < opt.replicationFactor → ∀ remote ∈ db.volumes.remotes, remote.server.Inv)
    (volumeOrder : RangeOrder UInt32) (keyOrder : RangeOrder Key)
    (noEntries : db.hindex.entryCount = 0) {entries : List WalEntry}
    (logEq : db.log = entries.map .entry) {now : Time}
    (replays : ∀ e ∈ entries, Replays now e)
    (held : ∀ e ∈ entries, e.type = .set → ∃ value, db.volumes.localVM.Holds e.addr value)
    (roomy : room → db.Room (entriesCost entries)) :
    (newBriseDB now keyOrder).Returns room (start closed.directory opt volumeOrder)
      fun _ next => ∃ after, next.Models after ∧
        after.content = WalEntry.redo rows.content entries ∧
        ∀ addr data, db.volumes.localVM.Holds addr data → next.volumes.localVM.Holds addr data := by
  rcases closes.restart models sameDrives remotesInv volumeOrder with
    ⟨isClosed, started, holds, keepsRoom⟩
  have fileHolds : FileHolds (start closed.directory opt volumeOrder).hindex rows.content 0 := by
    have stored := closes.fileHolds
    rw [noEntries] at stored
    exact stored
  refine .mono (newBriseDB_overlays keyOrder isClosed fileHolds
    (fun key row isRow => holds _ _ (models.holds key row isRow)) ?_ replays ?_ ?_) ?_
  · rw [started.file_eq]
    exact closes.file_eq.trans logEq
  · intro e mem isSet
    rcases held e mem isSet with ⟨value, isHeld⟩
    exact ⟨value, holds _ _ isHeld⟩
  · intro enough
    refine ⟨?_, keepsRoom _ (roomy enough).2⟩
    change closed.hindex.f.length + _ ≤ _
    rw [closes.length_eq]
    exact (roomy enough).1
  · rintro _ next ⟨after, afterModels, contentEq, keeps⟩
    exact ⟨after, afterModels, contentEq, fun addr data held => keeps.holds _ _ (holds _ _ held)⟩

end

/-- Replaying a complete log on top of the index changes nothing that a reader
sees. -/
theorem Redoable.overlay {db : DB} {rows : Rows} {t : Time} {entries : List WalEntry}
    (redoable : db.Redoable rows t entries) (key : Key) :
    Alike t (rows.content key) (WalEntry.redo rows.content entries key) := by
  have alike := redoable.alike key
  unfold WalEntry.redo at alike ⊢
  rw [KeyLog.run_apply] at alike ⊢
  cases last : KeyLog.last (entries.map WalEntry.update) key with
  | none => exact .refl _
  | some entry =>
      rw [last] at alike
      exact alike

end DB

/-! ## Logs that are complete at the end -/

/-- What an event does keeps the blobs. -/
theorem Event.Outcome.keeps {event : Event} {now : Clock} {w next : World} {rows after : Rows}
    (outcome : event.Outcome now w next rows after) :
    w.db.volumes.localVM.Extends next.db.volumes.localVM := by
  cases event with
  | call session c => exact outcome.2.keeps
  | evict order =>
      rcases outcome with ⟨-, -, change, effect, -⟩
      exact effect.keeps
  | compact indexOrder logOrder =>
      rw [outcome.2.2.volumes_eq]
      exact .refl _
  | flush =>
      rw [outcome.2.2]
      exact .refl _

theorem Event.Outcome.mode_eq {event : Event} {now : Clock} {w next : World} {rows after : Rows}
    (outcome : event.Outcome now w next rows after) :
    next.db.fsyncMode = w.db.fsyncMode := by
  cases event with
  | call session c => exact outcome.2.mode_eq
  | evict order =>
      rcases outcome with ⟨-, -, change, effect, -⟩
      exact effect.mode_eq
  | compact indexOrder logOrder => exact outcome.2.2.mode_eq
  | flush =>
      rw [outcome.2.2]
      rfl

namespace History

/-- Nothing is queued for the flusher when a compaction begins. -/
def CompactsDrained (h : History) : Prop :=
  h.Along fun step w => step.2.IsCompact → w.db.walCh = []

/-- With `FsyncAlways` nothing is ever queued between the steps of a run. -/
theorem compactsDrained_of_always {h : History} (regular : h.Regular) (sound : h.RemotesSound)
    (idsLeft : h.IdsLeft) (always : h.opt.fsync = .always) : h.CompactsDrained := by
  intro before step later split _
  rcases induction_along regular sound idsLeft (fun w => w.db.fsyncMode = .always)
    (fun db fresh => fresh.mode_eq.trans always)
    (fun _ _ _ _ _ _ _ mode outcome => outcome.mode_eq.trans mode) split with ⟨rows, models, mode⟩
  exact (models.db.logOK.always mode).1

/-- Every `Persist` of these steps removes no expiry or is followed by a compaction. -/
def Settled (h : History) (done : Run) : Prop :=
  ∀ before step later, done = before ++ step :: later →
    step.2.KeepsExpiry (h.after before) ∨ ∃ compaction ∈ later, compaction.2.IsCompact

/-- The last step compacts, or the steps before it are settled already. -/
theorem Settled.step {h : History} {done : Run} {last : Clock × Event}
    (settled : h.Settled (done ++ [last])) :
    last.2.IsCompact ∨ last.2.KeepsExpiry (h.after done) ∧ h.Settled done := by
  by_cases compacts : last.2.IsCompact
  · exact .inl compacts
  · refine .inr ⟨?_, ?_⟩
    · rcases settled done last [] rfl with keeps | ⟨compaction, mem, -⟩
      · exact keeps
      · cases mem
    · rintro before step later rfl
      rcases settled before step (later ++ [last]) (by simp) with
        keeps | ⟨compaction, mem, isCompact⟩
      · exact .inl keeps
      · rcases List.mem_append.mp mem with earlier | isLast
        · exact .inr ⟨compaction, earlier, isCompact⟩
        · exact absurd (List.mem_singleton.mp isLast ▸ isCompact) compacts

/-- After a settled run the log is complete. -/
theorem settled_redoable {h : History} (regular : h.Regular) (sound : h.RemotesSound)
    (idsLeft : h.IdsLeft) {t : Time} (later : ∀ step ∈ h.run, step.1.1 ≤ t) :
    ∃ rows, h.final.Models rows ∧
      h.final.db.volumes.localVM.drives = h.opt.extraDrives + 1 ∧
      (h.CompactsDrained → h.Settled h.run →
        ∃ entries, h.final.db.Redoable rows t entries) := by
  refine (History.induction regular sound idsLeft (fun before w rows =>
    w.db.volumes.localVM.drives = h.opt.extraDrives + 1 ∧
      (h.CompactsDrained → h.Settled before → ∃ entries, w.db.Redoable rows t entries)) ?_ ?_).2
  · intro db fresh
    exact ⟨fresh.drives_eq, fun _ _ => ⟨[], fresh.log_eq, nofun, fun _ => .refl none⟩⟩
  · rintro before now event rest next rows rows' split models ⟨drivesEq, complete⟩ - outcome
    refine ⟨outcome.keeps.drives_eq.trans drivesEq, fun drained settled => ?_⟩
    have isStep : (now, event) ∈ h.run := by simp [split]
    rcases settled.step with isCompact | ⟨keeps, earlier⟩
    · have flushed := drained before _ rest split isCompact
      cases event with
      | compact indexOrder logOrder =>
          rcases outcome with ⟨-, rfl, compacted⟩
          have le : Time.ofNano (Time.unixNano now) ≤ t := by
            rw [Clock.ofNano_unixNano]
            exact later _ isStep
          have redoable := compacted.redoable le (.inl flushed)
          rw [Clock.ofNano_unixNano] at redoable
          exact redoable
      | _ => cases isCompact
    · rcases complete drained earlier with ⟨entries, redoable⟩
      exact Event.redoable models outcome keeps (later _ isStep) redoable

/-! ## Restarts -/

/-- The database after `Close`. -/
def closed (h : History) (faults : List Fault) : Out DB Unit :=
  DB.close h.final.db faults

/-- The database after a restart. -/
def reopened (h : History) (closeFaults : List Fault) (opt : DBOptions)
    (volumeOrder : RangeOrder UInt32) (now : Time) (keyOrder : RangeOrder Key)
    (faults : List Fault) : Out DB Unit :=
  DB.newBriseDB now keyOrder
    (DB.start (h.closed closeFaults).state.directory opt volumeOrder) faults

/-- A restart changes no answer if the index counts entries, or the run is settled, its
compactions begin with nothing queued, and the log reads back. -/
theorem reopen_eq_live {h : History} (regular : h.Regular) (sound : h.RemotesSound)
    (idsLeft : h.IdsLeft) {now : Clock}
    (recoverable : h.final.db.hindex.entryCount ≠ 0 ∨
      h.CompactsDrained ∧ h.Settled h.run ∧
        ∀ e, WalLine.entry e ∈ h.final.db.log → DB.Replays now e)
    {closeFaults : List Fault} (closeClean : (h.closed closeFaults).failed = false)
    {opt : DBOptions} (sameDrives : opt.extraDrives = h.opt.extraDrives)
    (remotesInv : 1 < opt.replicationFactor →
      ∀ remote ∈ h.final.db.volumes.remotes, remote.server.Inv)
    {volumeOrder : RangeOrder UInt32} {keyOrder : RangeOrder Key} {faults : List Fault}
    (clean : (h.reopened closeFaults opt volumeOrder now keyOrder faults).failed = false) :
    (h.reopened closeFaults opt volumeOrder now keyOrder faults).res = .ok () ∧
      ∀ t, (∀ step ∈ h.run, step.1.1 ≤ t) → ∀ key,
        (Session.get key t
            ⟨(h.reopened closeFaults opt volumeOrder now keyOrder faults).state, []⟩ []).res =
          (Session.get key t ⟨h.final.db, []⟩ []).res ∧
        (Session.ttl key t
            ⟨(h.reopened closeFaults opt volumeOrder now keyOrder faults).state, []⟩ []).res =
          (Session.ttl key t ⟨h.final.db, []⟩ []).res := by
  have restarted : ∀ t, (∀ step ∈ h.run, step.1.1 ≤ t) →
      ∃ rows after, h.final.db.Models rows ∧
        (h.reopened closeFaults opt volumeOrder now keyOrder faults).res = .ok () ∧
        (h.reopened closeFaults opt volumeOrder now keyOrder faults).state.Models after ∧
        ∀ key, DB.visible t (after key) = DB.visible t (rows key) ∧
          DB.rowTTL t (after key) = DB.rowTTL t (rows key) := by
    intro t later
    rcases settled_redoable regular sound idsLeft later with ⟨rows, models, drivesEq, complete⟩
    have drives : h.final.db.volumes.localVM.drives = opt.extraDrives + 1 := by
      rw [drivesEq, sameDrives]
    rcases (DB.close_returns models.db : Exec.Returns _ False _ _).correct _ closeClean with
      ⟨_, _, closes⟩
    by_cases counts : h.final.db.hindex.entryCount = 0
    · rcases recoverable with counted | ⟨drained, settled, replays⟩
      · exact absurd counts counted
      · rcases complete drained settled with ⟨entries, redoable⟩
        rcases (closes.overlays models.db drives remotesInv volumeOrder keyOrder counts
          redoable.log_eq (fun e mem => replays e (by
            rw [redoable.log_eq]
            exact List.mem_map_of_mem mem)) redoable.held False.elim).correct _ clean with
          ⟨_, resEq, after, afterModels, contentEq, keeps⟩
        refine ⟨rows, after, models.db, resEq, afterModels, fun key => ?_⟩
        apply models.db.read_alike afterModels keeps
        rw [contentEq]
        exact redoable.overlay key
    · rcases (closes.takesIndex models.db drives remotesInv volumeOrder keyOrder counts
        now : Exec.Returns _ False _ _).correct _ clean with ⟨_, resEq, afterModels⟩
      exact ⟨rows, rows, models.db, resEq, afterModels, fun _ => ⟨rfl, rfl⟩⟩
  constructor
  · rcases restarted (2 ^ 63) fun step _ => step.1.2.2.le with ⟨_, _, _, resEq, _⟩
    exact resEq
  · intro t later key
    rcases restarted t later with ⟨rows, after, models, -, afterModels, same⟩
    rw [Session.get_res afterModels, Session.get_res models, Session.ttl_res afterModels,
      Session.ttl_res models, (same key).1, (same key).2]
    exact ⟨rfl, rfl⟩

end History

/-! ## A counter that drifts to zero -/

namespace DB

variable {db : DB} {rows : Rows} {count : Int} {bytes : Nat}

/-- A database with `FsyncAlways` and one copy of each blob. -/
structure Stocked (db : DB) (rows : Rows) (count : Int) (bytes : Nat) : Prop where
  models : db.Models rows
  count_eq : db.hindex.entryCount.toInt = count
  always : db.fsyncMode = .always
  factor_eq : db.volumes.replicationFactor = 1
  drives_eq : db.volumes.localVM.drives = 1
  room : db.Room bytes

theorem Fresh.stocked (fresh : db.Fresh [] ⟨0, 0, 1, 0, .always⟩)
    (small : freshBytes + bytes ≤ File.maxSize) : db.Stocked (fun _ => none) 0 bytes :=
  ⟨fresh.models, fresh.count_eq, fresh.mode_eq, fresh.factor_eq, fresh.drives_eq,
    fresh.roomAlone _ small⟩

theorem Effect.stocked {next : DB} {change : Change} (effect : Effect db next change)
    (stocked : db.Stocked rows count (change.cost + bytes)) :
    next.Stocked change.rows (change.count count) bytes :=
  ⟨effect.models, effect.count_eq.trans (congrArg _ stocked.count_eq),
    effect.mode_eq.trans stocked.always, effect.factor_eq.trans stocked.factor_eq,
    effect.keeps.drives_eq.trans stocked.drives_eq, effect.room bytes stocked.room⟩

/-- `SetEX` of a short key. -/
theorem Stocked.setEX (stocked : db.Stocked rows count (49 + bytes)) (byte : UInt8)
    {ttl : Int64} (positive : ¬ ttl ≤ 0) :
    ((Event.call 0 (.setEX [byte] [byte] ttl)).run Clock.sample).Returns True (World.ofDB db)
      fun _ w => ∃ next addr, w = World.ofDB next ∧
        next.Stocked (Function.update rows [byte]
          (some ⟨addr, Time.unixNano (Clock.sample.1 + ttl.toInt), [byte]⟩)) (count + 1) bytes ∧
        ∀ key, next.expiring key =
          if key = [byte] then some (Clock.sample.1 + ttl.toInt) else db.expiring key := by
  have cost : db.volumes.cost [byte] + indexCost [byte] = 49 := by
    rw [VolumePool.cost, stocked.factor_eq]
    rfl
  refine .mono (Call.Direct.event (Call.direct_setEX positive (setEXNow_returns
    stocked.models (by simp) (fun _ => stocked.room.mono (by rw [cost]; exact Nat.le_add_right _ _))
    (Session.expiry_pos Clock.sample (Int64.not_le.mp positive)))) 0) ?_
  rintro _ _ ⟨next, rfl, addr, effect⟩
  rw [← cost] at stocked
  refine ⟨next, addr, rfl, effect.stocked stocked, fun key => ?_⟩
  rw [expiring, effect.expiry_eq]
  exact cacheIn_expiring [byte] (some (Clock.sample.1 + ttl.toInt)) db key

/-- Compaction of an index in which only one entry has not expired. -/
theorem Stocked.compact (stocked : db.Stocked rows count bytes) (few : 0 ≤ count ∧ count ≤ 3)
    (small : bytes ≤ 1000) (now : Clock) {key : Key} {row : Row} (isRow : rows key = some row)
    (short : key.length = 1)
    (only : ∀ other found, rows other = some found →
      (¬ Session.expiredAt now found.expiresAt ↔ other = key)) :
    (DB.compact now (.asStored _) (.asStored _)).Returns True db fun _ next =>
      next.Stocked (rows.prune now) 1 bytes ∧ Compacted db next rows (Time.unixNano now) ∧
        next.walFile = [WalEntry.ofSet key row.addr row.expiresAt].map .entry := by
  have nanoEq := Clock.ofNano_unixNano now
  have isSingle : ∀ other : Index.Visit, rows.content other.key =
      some (other.addr, other.expiresAt) ∧ ¬ Index.Expired (Time.unixNano now) other.expiresAt ↔
        other = ⟨key, row.addr, row.expiresAt⟩ := by
    rintro ⟨other, addr, expiresAt⟩
    rw [← expiredAt_ofNano, nanoEq]
    constructor
    · rintro ⟨found, live⟩
      rcases Rows.content_eq_some.mp found with ⟨stored, isStored, entryEq⟩
      rcases Prod.mk.inj entryEq with ⟨rfl, rfl⟩
      obtain rfl := (only _ _ isStored).mp live
      rw [Option.some.inj (isRow.symm.trans isStored)]
    · rintro ⟨⟩
      exact ⟨Rows.content_eq_some.mpr ⟨row, isRow, rfl⟩, (only key row isRow).mpr rfl⟩
  have isSinglePruned : ∀ other : Index.Visit, (rows.prune now).content other.key =
      some (other.addr, other.expiresAt) ∧ ¬ Index.Expired (Time.unixNano now) other.expiresAt ↔
        other = ⟨key, row.addr, row.expiresAt⟩ := by
    intro other
    have pruned := rows.content_prune (Time.unixNano now)
    rw [nanoEq] at pruned
    rw [← isSingle, pruned, Index.prune_eq_some]
    simp only [and_assoc, and_self]
  have indexBytes : ∀ calls, Index.Enumerates (Time.unixNano now) rows.content calls →
      Index.dataStart (Index.compactBuckets db.hindex.entryCount).toNat +
        Index.visitBytes calls + 1000 ≤ File.maxSize := by
    intro calls enumerates
    have counted : Index.compactBuckets db.hindex.entryCount = Index.defaultBucketCount :=
      Index.compactBuckets_of_le (stocked.count_eq ▸ few.1)
        (stocked.count_eq ▸ few.2.trans (by decide))
    rw [enumerates.eq_single isSingle, counted]
    simp only [Index.visitBytes, List.map_singleton, List.sum_singleton, short]
    decide +kernel
  have compacts : (DB.compact (Time.ofNano (Time.unixNano now)) (.asStored _)
      (.asStored _)).Returns True db _ :=
    compact_returns stocked.models _ _ _ fun _ calls enumerates =>
      (Nat.le_add_right _ _).trans (indexBytes calls enumerates)
  rw [nanoEq] at compacts
  refine .mono compacts ?_
  intro _ next compacted
  have models := compacted.models
  rw [nanoEq] at models
  have volumesEq := compacted.volumes_eq
  rcases compacted.count_eq with ⟨calls, enumerates, countEq, lengthEq⟩
  rcases compacted.log_eq with ⟨logged, loggedEnumerates, fileEq⟩
  rw [nanoEq] at loggedEnumerates
  rw [loggedEnumerates.eq_single isSinglePruned,
    (stocked.models.logOK.always stocked.always).1, List.append_nil] at fileEq
  refine ⟨⟨models, ?_, compacted.mode_eq.trans stocked.always, ?_, ?_, ?_⟩, compacted, fileEq⟩
  · rw [countEq, enumerates.eq_single isSingle]
    rfl
  · rw [volumesEq]
    exact stocked.factor_eq
  · rw [volumesEq]
    exact stocked.drives_eq
  · refine ⟨?_, volumesEq ▸ stocked.room.2⟩
    rw [lengthEq]
    exact (Nat.add_le_add_left small _).trans (indexBytes calls enumerates)

/-- `Compact` as an event. -/
theorem compact_event {room : Prop} {now : Clock} {indexOrder logOrder : RangeOrder Key}
    {post : DB → Prop}
    (returns : (DB.compact now indexOrder logOrder).Returns room db fun _ => post) :
    ((Event.compact indexOrder logOrder).run now).Returns room (World.ofDB db) fun _ w =>
      ∃ next, w = World.ofDB next ∧ post next := by
  refine .bind_zoom (.attempt returns) ?_
  rintro _ next ⟨_, _, holds⟩
  exact .pure ⟨next, rfl, holds⟩

/-- `Persist` of a short key with an expiry. -/
theorem Stocked.persist (stocked : db.Stocked rows count (40 + bytes)) {byte : UInt8} {row : Row}
    (isRow : rows [byte] = some row) (hasExpiry : row.expiresAt ≠ 0) (now : Clock) :
    ((Event.call 0 (.persist [byte])).run now).Returns True (World.ofDB db) fun _ w =>
      ∃ next, w = World.ofDB next ∧
        next.Stocked (Function.update rows [byte] (some { row with expiresAt := 0 })) (count + 1)
          bytes ∧
        next.log = db.log ∧
        ∀ key, next.expiring key = if key = [byte] then none else db.expiring key := by
  refine .mono (Call.Direct.event (Call.direct_persist (persistLocked_removes
    stocked.models isRow hasExpiry fun _ => stocked.room.mono (Nat.le_add_right _ _))) 0) ?_
  rintro _ _ ⟨next, rfl, effect⟩
  refine ⟨next, rfl, effect.stocked stocked, ?_, fun key => ?_⟩
  · simpa [Change.row] using effect.log_eq
  · rw [expiring, effect.expiry_eq]
    exact cacheIn_expiring [byte] none db key

/-- No key is evicted twice. -/
theorem nodup_evictions (models : db.Models rows) (now : Time)
    (order : Fin numShards → RangeOrder Key) : (db.evictions now order).Nodup := by
  rw [evictions, List.nodup_flatMap]
  refine ⟨fun shard _ => ?_, (List.nodup_finRange _).imp fun {first second} different => ?_⟩
  · exact (List.filter_sublist.map Prod.fst).nodup
      (Table.nodup_range (order shard) (db.expiry shard))
  · intro key inFirst inSecond
    have shardOf : ∀ shard, key ∈ (((db.expiry shard).range (order shard)).filter
        fun entry => entry.2 < now).map Prod.fst → shard = shardIndex key := by
      intro shard mem
      rcases List.mem_map.mp mem with ⟨⟨found, instant⟩, isEntry, rfl⟩
      have cached := (Table.mem_range _ _ _ _).mp (List.mem_of_mem_filter isEntry)
      exact (models.cached shard found (by rw [cached]; rfl)).1
    exact different ((shardOf first inFirst).trans (shardOf second inSecond).symm)

/-- Eviction when the expiries of two short keys have passed. -/
theorem Stocked.evict (stocked : db.Stocked rows count (80 + bytes)) (nonneg : 0 ≤ count)
    (few : count ≤ 2) {first second : UInt8} (different : first ≠ second) (now : Clock)
    (passed : ∀ key, (∃ instant, db.expiring key = some instant ∧ instant < now.1) ↔
      key ∈ [[first], [second]]) :
    ((Event.evict fun _ => .asStored _).run now).Returns True (World.ofDB db) fun _ w =>
      ∃ next, w = World.ofDB next ∧ next.Stocked (rows.removeAll [[first], [second]]) 0 bytes ∧
        next.log = db.log := by
  have perm : (db.evictions now fun _ => .asStored _).Perm [[first], [second]] := by
    rw [List.perm_ext_iff_of_nodup (nodup_evictions stocked.models _ _) (by simpa using different)]
    intro key
    rw [mem_evictions stocked.models.inShards, passed]
  have cost : ((db.evictions now fun _ => .asStored _).map indexCost).sum = 80 := by
    rw [(perm.map indexCost).sum_eq]
    rfl
  have swept : (evictExpired now fun _ => .asStored _).Returns True db _ :=
    evictExpired_returns stocked.models now (fun _ => .asStored _) fun _ => stocked.room.mono (by
      rw [cost]
      exact Nat.le_add_right _ _)
  have zoomed : (World.onDB (evictExpired now fun _ => .asStored _)).Returns True
      (World.ofDB db) _ := .zoom swept
  refine .mono zoomed ?_
  rintro _ _ ⟨next, rfl, change, effect, rowsEq, noLog, _, costEq, countEq, _⟩
  rw [cost] at costEq
  rw [← costEq] at stocked
  have result := effect.stocked stocked
  have noneLeft : max 0 (count - ([[first], [second]] : List Key).length) = 0 :=
    max_eq_left (by simpa using few)
  rw [rowsEq, countEq count nonneg, Rows.removeAll_congr _ fun key => perm.mem_iff,
    perm.length_eq, noneLeft] at result
  refine ⟨next, rfl, result, ?_⟩
  have logEq := effect.log_eq
  rw [noLog] at logEq
  simpa using logEq

end DB

/-- Two seconds later. -/
def Clock.later : Clock :=
  ⟨10 ^ 18 + 2 * 10 ^ 9, by decide⟩

/-- Two keys are set, one for a second and one for ten. -/
def Run.twoLifetimes : Run :=
  [(.sample, .call 0 (.setEX [97] [97] (10 ^ 9))), (.sample, .call 0 (.setEX [99] [99] (10 ^ 10)))]

def History.twoLifetimes : History :=
  .undisturbed ⟨0, 0, 1, 0, .always⟩ Run.twoLifetimes

/-- The index has both keys, and only the first is due two seconds later. -/
structure DB.FirstDue (db : DB) (rows : Rows) : Prop where
  stocked : db.Stocked rows 2 100
  first : ∃ addr, rows [97] = some ⟨addr, 10 ^ 18 + 10 ^ 9, [97]⟩
  second : ∃ addr, rows [99] = some ⟨addr, 10 ^ 18 + 10 ^ 10, [99]⟩
  others : ∀ key, key ≠ [97] → key ≠ [99] → rows key = none
  due : ∀ key, (∃ instant, db.expiring key = some instant ∧ instant < Clock.later.1) ↔ key = [97]

theorem Run.twoLifetimes_returns {db : DB} (fresh : DB.Fresh db [] ⟨0, 0, 1, 0, .always⟩) :
    Run.twoLifetimes.exec.Returns True (World.ofDB db) fun _ w => ∃ rows, w.db.FirstDue rows := by
  have stocked : db.Stocked (fun _ => none) 0 (49 + (49 + 100)) :=
    fresh.stocked (by decide +kernel)
  have noExpiry : ∀ key, db.expiring key = none := fun key => by
    simp [DB.expiring, fresh.expiry_eq]
  have passed : Clock.sample.1 + (10 ^ 9 : Int64).toInt < Clock.later.1 := by decide
  have notPassed : ¬ Clock.sample.1 + (10 ^ 10 : Int64).toInt < Clock.later.1 := by decide
  have firstAt : Time.unixNano (Clock.sample.1 + (10 ^ 9 : Int64).toInt) = 10 ^ 18 + 10 ^ 9 := by
    decide
  have secondAt : Time.unixNano (Clock.sample.1 + (10 ^ 10 : Int64).toInt) = 10 ^ 18 + 10 ^ 10 := by
    decide
  refine .bind (stocked.setEX 97 (by decide)) ?_
  rintro _ _ ⟨db₁, addr₁, rfl, stocked₁, expiring₁⟩
  refine .bind (stocked₁.setEX 99 (by decide)) ?_
  rintro _ _ ⟨db₂, addr₂, rfl, stocked₂, expiring₂⟩
  rw [firstAt, secondAt] at stocked₂
  refine .pure ⟨_, stocked₂, ⟨addr₁, ?_⟩, ⟨addr₂, Function.update_self ..⟩,
    fun key notFirst notSecond => ?_, fun key => ?_⟩
  · rw [Function.update_of_ne (by decide), Function.update_self]
  · rw [Function.update_of_ne notSecond, Function.update_of_ne notFirst]
  · change (∃ instant, db₂.expiring key = some instant ∧ instant < Clock.later.1) ↔ _
    rw [expiring₂, expiring₁, noExpiry]
    by_cases isSecond : key = [99]
    · simpa [isSecond] using not_lt.mp notPassed
    · by_cases isFirst : key = [97]
      · simpa [isFirst] using passed
      · simp [isSecond, isFirst]

theorem History.alwaysSynced_fresh (run : Run) :
    DB.Fresh (History.undisturbed ⟨0, 0, 1, 0, .always⟩ run).opened.state []
      ⟨0, 0, 1, 0, .always⟩ := by
  have small : (History.undisturbed ⟨0, 0, 1, 0, .always⟩ run).Small .always := rfl
  exact small.opened.2

theorem History.twoLifetimes_final : ∃ rows, History.twoLifetimes.final.db.FirstDue rows := by
  have returns := Run.twoLifetimes_returns (History.alwaysSynced_fresh Run.twoLifetimes)
  rcases @History.final_of_returns History.twoLifetimes rfl _ returns with ⟨_, due⟩
  exact due

/-- Two keys expire and a third does not; then the index is compacted. -/
def Run.compacted : Run :=
  [(.sample, .call 0 (.setEX [97] [97] (10 ^ 9))),
    (.sample, .call 0 (.setEX [98] [98] (10 ^ 9))),
    (.sample, .call 0 (.setEX [99] [99] (10 ^ 10))),
    (.later, .compact (.asStored _) (.asStored _))]

/-- The index then counts one entry, and the cache still has all three expiries. -/
structure DB.HalfCached (db : DB) (addr : NeedleAddr) (rows : Rows) : Prop where
  stocked : db.Stocked rows 1 220
  isRow : rows [99] = some ⟨addr, 10 ^ 18 + 10 ^ 10, [99]⟩
  log_eq : db.log = [WalEntry.ofSet [99] addr (10 ^ 18 + 10 ^ 10)].map .entry
  passed : ∀ key, (∃ instant, db.expiring key = some instant ∧ instant < Clock.later.1) ↔
    key ∈ ([[97], [98]] : List Key)

theorem Run.compacted_returns {db : DB} (fresh : DB.Fresh db [] ⟨0, 0, 1, 0, .always⟩) :
    Run.compacted.exec.Returns True (World.ofDB db) fun _ w =>
      ∃ next addr rows, w = World.ofDB next ∧ next.HalfCached addr rows := by
  have stocked : db.Stocked (fun _ => none) 0 (49 + (49 + (49 + 220))) :=
    fresh.stocked (by decide +kernel)
  have noExpiry : ∀ key, db.expiring key = none := fun key => by
    simp [DB.expiring, fresh.expiry_eq]
  have expiresAtEq : Time.unixNano (Clock.sample.1 + (10 ^ 10 : Int64).toInt) =
      10 ^ 18 + 10 ^ 10 := by decide
  have live : ¬ Session.expiredAt Clock.later (10 ^ 18 + 10 ^ 10) := by decide
  have expired : Session.expiredAt Clock.later
      (Time.unixNano (Clock.sample.1 + (10 ^ 9 : Int64).toInt)) := by decide
  have passed : Clock.sample.1 + (10 ^ 9 : Int64).toInt < Clock.later.1 := by decide
  have notPassed : ¬ Clock.sample.1 + (10 ^ 10 : Int64).toInt < Clock.later.1 := by decide
  refine .bind (stocked.setEX 97 (by decide)) ?_
  rintro _ _ ⟨db₁, addr₁, rfl, stocked₁, expiring₁⟩
  refine .bind (stocked₁.setEX 98 (by decide)) ?_
  rintro _ _ ⟨db₂, addr₂, rfl, stocked₂, expiring₂⟩
  refine .bind (stocked₂.setEX 99 (by decide)) ?_
  rintro _ _ ⟨db₃, addr, rfl, stocked₃, expiring₃⟩
  set rows : Rows := Function.update (Function.update (Function.update (fun _ => none) [97] _)
    [98] _) [99] _ with rowsDef
  have isRow : rows [99] = some ⟨addr, 10 ^ 18 + 10 ^ 10, [99]⟩ := Function.update_self ..
  refine .bind (DB.compact_event (stocked₃.compact (by decide) (by decide) .later isRow rfl ?_)) ?_
  · intro other found isFound
    simp only [rowsDef, Function.update_apply] at isFound
    split at isFound
    · next isThird => simpa [isThird, ← Option.some.inj isFound, expiresAtEq] using live
    · next notThird =>
      suffices gone : Session.expiredAt Clock.later found.expiresAt by simpa [notThird] using gone
      split at isFound
      · rw [← Option.some.inj isFound]
        exact expired
      · split at isFound
        · rw [← Option.some.inj isFound]
          exact expired
        · cases isFound
  rintro _ _ ⟨db₄, rfl, stocked₄, compacted, fileEq⟩
  have cached : ∀ key, db₄.expiring key = db₃.expiring key := fun key => by
    rw [DB.expiring, compacted.expiry_eq]
    rfl
  refine .pure ⟨db₄, addr, _, rfl, stocked₄, Rows.prune_eq_some.mpr ⟨isRow, live⟩, ?_, ?_⟩
  · rw [DB.log, (stocked₄.models.logOK.always stocked₄.always).1, fileEq]
    rfl
  · intro key
    rw [cached, expiring₃, expiring₂, expiring₁, noExpiry]
    by_cases isThird : key = [99]
    · simpa [isThird] using not_lt.mp notPassed
    · by_cases isSecond : key = [98]
      · simpa [isSecond] using passed
      · by_cases isFirst : key = [97]
        · simpa [isFirst] using passed
        · simp [isThird, isSecond, isFirst]

/-- The eviction of the two keys then counts down to zero. -/
def History.swept : History :=
  .undisturbed ⟨0, 0, 1, 0, .always⟩ (Run.compacted ++ [(.later, .evict fun _ => .asStored _)])

theorem History.swept_returns {db : DB} (fresh : DB.Fresh db [] History.swept.opt) :
    History.swept.run.exec.Returns True (World.ofDB db) fun _ w =>
      ∃ addr rows, w.db.Stocked rows 0 140 ∧ rows [99] = some ⟨addr, 10 ^ 18 + 10 ^ 10, [99]⟩ ∧
        w.db.log = [WalEntry.ofSet [99] addr (10 ^ 18 + 10 ^ 10)].map .entry := by
  have different : (97 : UInt8) ≠ 98 := by decide
  change (Exec.each (Run.compacted ++ _) _).Returns True _ _
  rw [Exec.each_append]
  refine .bind (Run.compacted_returns fresh) ?_
  rintro _ _ ⟨db₁, addr, rows, rfl, half⟩
  have stocked : db₁.Stocked rows 1 (80 + 140) := half.stocked
  refine .bind (stocked.evict (by decide) (by decide) different .later half.passed) ?_
  rintro _ _ ⟨db₂, rfl, stocked₂, logEq⟩
  refine .pure ⟨addr, _, stocked₂, ?_, logEq.trans half.log_eq⟩
  rw [Rows.removeAll_apply, if_neg (by decide)]
  exact half.isRow

/-- The third key is made permanent before that. -/
def History.drifted : History :=
  .undisturbed ⟨0, 0, 1, 0, .always⟩ (Run.compacted ++
    [(.later, .call 0 (.persist [99])), (.later, .evict fun _ => .asStored _)])

theorem History.drifted_returns {db : DB} (fresh : DB.Fresh db [] History.drifted.opt) :
    History.drifted.run.exec.Returns True (World.ofDB db) fun _ w =>
      ∃ addr rows, w.db.Stocked rows 0 100 ∧ rows [99] = some ⟨addr, 0, [99]⟩ ∧
        w.db.log = [WalEntry.ofSet [99] addr (10 ^ 18 + 10 ^ 10)].map .entry := by
  have different : (97 : UInt8) ≠ 98 := by decide
  have hasExpiry : (10 ^ 18 + 10 ^ 10 : Int64) ≠ 0 := by decide
  change (Exec.each (Run.compacted ++ _) _).Returns True _ _
  rw [Exec.each_append]
  refine .bind (Run.compacted_returns fresh) ?_
  rintro _ _ ⟨db₁, addr, rows, rfl, half⟩
  have stocked : db₁.Stocked rows 1 (40 + (80 + 100)) := half.stocked
  refine .bind (stocked.persist half.isRow hasExpiry .later) ?_
  rintro _ _ ⟨db₂, rfl, stocked₂, logEq₂, expiring₂⟩
  refine .bind (stocked₂.evict (by decide) (by decide) different .later ?_) ?_
  · intro key
    rw [expiring₂]
    by_cases isThird : key = [99]
    · simp [isThird]
    · rw [if_neg isThird]
      exact half.passed key
  rintro _ _ ⟨db₃, rfl, stocked₃, logEq₃⟩
  refine .pure ⟨addr, _, stocked₃, ?_, logEq₃.trans (logEq₂.trans half.log_eq)⟩
  rw [Rows.removeAll_apply, if_neg (by decide)]
  exact Function.update_self ..

/-- Opening such a database again replays the record of the third key. -/
theorem DB.Stocked.replay {db closed : DB} {rows : Rows} {bytes : Nat}
    (stocked : db.Stocked rows 0 bytes) (enough : 100 ≤ bytes) {addr : NeedleAddr}
    {expiresAt : Int64} (isRow : rows [99] = some ⟨addr, expiresAt, [99]⟩)
    (logEq : db.log = [WalEntry.ofSet [99] addr (10 ^ 18 + 10 ^ 10)].map .entry)
    (closes : ClosedFrom db closed rows) :
    (∀ e, WalLine.entry e ∈ db.log → Replays Clock.later e) ∧
      (DB.newBriseDB Clock.later (.asStored _)).Returns True
        (DB.start closed.directory ⟨0, 0, 1, 0, .always⟩ (.asStored _)) fun _ next =>
          ∃ after, next.Models after ∧ after.content =
            WalEntry.redo rows.content [WalEntry.ofSet [99] addr (10 ^ 18 + 10 ^ 10)] := by
  have kept : ¬ (0 < (10 ^ 18 + 10 ^ 10 : Int64) ∧
      Time.ofSeconds (10 ^ 18 + 10 ^ 10) < Clock.later.1) := by decide
  have held : db.volumes.localVM.Holds addr [99] := stocked.models.holds [99] _ isRow
  have replays : Replays Clock.later (WalEntry.ofSet [99] addr (10 ^ 18 + 10 ^ 10)) :=
    ⟨WalEntry.ofSet_readsBack (by decide) (by decide) addr _, fun skips => kept skips.2⟩
  refine ⟨by simpa [logEq] using replays, Exec.Returns.mono (closes.overlays stocked.models
    stocked.drives_eq (fun replicated => absurd replicated (by decide)) (.asStored _) (.asStored _)
    (Int64.toInt_inj.mp stocked.count_eq) logEq ?_ ?_ ?_) ?_⟩
  · rw [List.forall_mem_singleton]
    exact replays
  · rw [List.forall_mem_singleton]
    exact fun _ => ⟨[99], held⟩
  · intro _
    refine stocked.room.mono (le_trans ?_ enough)
    change DB.indexCost [99] + 0 ≤ 100
    decide
  · rintro _ next ⟨after, afterModels, contentEq, _⟩
    exact ⟨after, afterModels, contentEq⟩

/-- A live key comes back with its expiry although the index counts no entries. -/
theorem History.reopen_eq_live_swept :
    History.swept.final.db.hindex.entryCount = 0 ∧
      (History.swept.reopened [] History.swept.opt (.asStored _) Clock.later (.asStored _) []).res =
        .ok () ∧
      (Session.get [99] Clock.later ⟨(History.swept.reopened [] History.swept.opt (.asStored _)
        Clock.later (.asStored _) []).state, []⟩ []).res = .ok (some [99]) := by
  have small : History.swept.Small .always := rfl
  have sound := small.remotesSound
  have idsLeft := History.idsLeft_of_noStream small.idsLeft (by decide)
  rcases small.final fun _ => History.swept_returns with
    ⟨opened, ran, addr, rows, stocked, isRow, logEq⟩
  have regular : History.swept.Regular := ⟨opened, ran, by decide⟩
  have settled : History.swept.Settled History.swept.run := by
    intro before step later split
    have isStep : step ∈ History.swept.run := by simp [split]
    simp only [History.swept, History.undisturbed, Run.compacted, List.cons_append, List.nil_append,
      List.mem_cons, List.not_mem_nil, or_false] at isStep
    rcases isStep with rfl | rfl | rfl | rfl | rfl <;> exact .inl trivial
  have closes : DB.close.Returns True History.swept.final.db _ := DB.close_returns stocked.models
  have closeClean : (History.swept.closed []).failed = false := (closes.undisturbed trivial).1
  rcases closes.correct [] closeClean with ⟨_, _, closedFrom⟩
  rcases stocked.replay (by decide) isRow logEq closedFrom with ⟨replays, opens⟩
  have notExpired : ¬ Session.expiredAt Clock.later (10 ^ 18 + 10 ^ 10) := by decide
  have live := History.reopen_eq_live regular sound idsLeft
    (.inr ⟨History.compactsDrained_of_always regular sound idsLeft rfl, settled, replays⟩)
      closeClean
    rfl (fun replicated => absurd replicated (by decide)) (opens.undisturbed trivial).1
  refine ⟨Int64.toInt_inj.mp stocked.count_eq, live.1, ?_⟩
  rw [(live.2 Clock.later (by decide) [99]).1, Session.get_res stocked.models, isRow, DB.visible,
    if_neg notExpired]

/-- Opening a database in which the key is permanent brings the logged expiry back. -/
theorem DB.Stocked.reopen {db closed : DB} {rows : Rows} (stocked : db.Stocked rows 0 100)
    {addr : NeedleAddr} (isRow : rows [99] = some ⟨addr, 0, [99]⟩)
    (logEq : db.log = [WalEntry.ofSet [99] addr (10 ^ 18 + 10 ^ 10)].map .entry)
    (closes : ClosedFrom db closed rows) :
    (DB.newBriseDB Clock.later (.asStored _)).Returns True
      (DB.start closed.directory History.drifted.opt (.asStored _)) fun _ next =>
        (Session.get [99] (10 ^ 18 + 2 * 10 ^ 10) ⟨next, []⟩ []).res = .ok none := by
  refine .mono (stocked.replay le_rfl isRow logEq closes).2 ?_
  rintro _ next ⟨after, afterModels, contentEq⟩
  have found := congrFun contentEq [99]
  rw [WalEntry.redo_ofSet] at found
  exact Session.get_expired afterModels found (by decide)

/-- After the restart the permanent key has its old expiry again. -/
theorem History.reopen_misses_persist :
    History.drifted.Regular ∧ (History.drifted.closed []).failed = false ∧
      (History.drifted.reopened [] History.drifted.opt (.asStored _) Clock.later
        (.asStored _) []).failed = false ∧
      (Session.get [99] (10 ^ 18 + 2 * 10 ^ 10)
        ⟨(History.drifted.reopened [] History.drifted.opt (.asStored _) Clock.later
          (.asStored _) []).state, []⟩ []).res = .ok none ∧
      (Session.get [99] (10 ^ 18 + 2 * 10 ^ 10) ⟨History.drifted.final.db, []⟩ []).res =
        .ok (some [99]) := by
  have small : History.drifted.Small .always := rfl
  rcases small.final fun _ => History.drifted_returns with
    ⟨opened, ran, addr, rows, stocked, isRow, logEq⟩
  have closes : DB.close.Returns True History.drifted.final.db _ := DB.close_returns stocked.models
  have closeClean : (History.drifted.closed []).failed = false := (closes.undisturbed trivial).1
  rcases closes.correct [] closeClean with ⟨_, _, closedFrom⟩
  have reopens := stocked.reopen isRow logEq closedFrom
  have clean := (reopens.undisturbed trivial).1
  rcases reopens.correct [] clean with ⟨_, _, missed⟩
  refine ⟨⟨opened, ran, by decide⟩, closeClean, clean, missed, ?_⟩
  rw [Session.get_res stocked.models, isRow]
  rfl

end BriseDB
