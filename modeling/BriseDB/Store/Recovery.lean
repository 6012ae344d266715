import BriseDB.Base.KeyLog
import BriseDB.Store.Background

/-!
# Recovery

Replaying the log applies its records in order, and opening an index takes its
content over.  The two meet in `recover`, which replays the log exactly when the
index counts no entries.
-/

namespace BriseDB

open Index (Content Represents FileHolds)

namespace WalEntry

/-- The index entry that a record leaves for its key. -/
def entry (e : WalEntry) : Option (NeedleAddr × Int64) :=
  match e.type with
  | .set => some (e.addr, e.expiresAt)
  | .delete => none

/-- The update of the index that a record stands for. -/
def update (e : WalEntry) : KeyUpdate Key (NeedleAddr × Int64) :=
  (e.key, e.entry)

/-- What redoing records makes of the content of an index. -/
def redo (content : Content) (entries : List WalEntry) : Content :=
  KeyLog.run content (entries.map update)

theorem redo_cons (content : Content) (e : WalEntry) (entries : List WalEntry) :
    redo content (e :: entries) = redo (Function.update content e.key e.entry) entries :=
  rfl

theorem redo_ofSet (content : Content) (key : Key) (addr : NeedleAddr) (expiresAt : Int64) :
    redo content [ofSet key addr expiresAt] key = some (addr, expiresAt) := by
  simp [redo, KeyLog.apply, update, entry, ofSet, WalEntry.addr]

theorem redo_append (content : Content) (first second : List WalEntry) :
    redo content (first ++ second) = redo (redo content first) second := by
  simp [redo, KeyLog.run_append]

end WalEntry

namespace DB

section

variable {db : DB} {rows : Rows} {room : Prop} {now : Time} {opt : DBOptions}
  {entries : List WalEntry} {remotes : List Remote}

/-! ## Replaying the log -/

/-- `applyEntry` of any record whose address, if it has one, holds a value. -/
theorem applyEntry_returns (models : db.Models rows) {op : WalEntry}
    (keyFits : op.key.length ≤ 65535)
    (held : op.type = .set → ∃ value, db.volumes.localVM.Holds op.addr value)
    (roomy : room → db.Room (indexCost op.key)) :
    (applyEntry op).Returns room db fun _ next =>
      ∃ row cached, Effect db next (.row db rows op.key row cached) ∧
        (row.map fun row => (row.addr, row.expiresAt)) = op.entry := by
  cases type : op.type with
  | set =>
      obtain ⟨value, holds⟩ := held type
      refine .mono (applyEntry_set_returns models type keyFits holds roomy) ?_
      intro _ next effect
      exact ⟨_, _, effect, by simp [WalEntry.entry, type]⟩
  | delete =>
      refine .mono (applyEntry_delete_returns models type keyFits roomy) ?_
      intro _ next effect
      exact ⟨_, _, effect, by simp [WalEntry.entry, type]⟩

/-- A record that replay at `now` takes over as it was written. -/
structure Replays (now : Time) (e : WalEntry) : Prop where
  readsBack : e.ReadsBack
  kept : ¬ replaySkips now e

/-- The records that replay does not pass over. -/
def kept (now : Time) (entries : List WalEntry) : List WalEntry :=
  entries.filter fun e => ¬ replaySkips now e

theorem kept_eq_self (replays : ∀ e ∈ entries, Replays now e) : kept now entries = entries :=
  List.filter_eq_self.mpr fun e mem => by simpa using (replays e mem).kept

/-- The bytes that the index entries of records take. -/
def entriesCost (entries : List WalEntry) : Nat :=
  (entries.map fun e => indexCost e.key).sum

theorem entriesCost_kept_le (now : Time) (entries : List WalEntry) :
    entriesCost (kept now entries) ≤ entriesCost entries := by
  induction entries with
  | nil => exact Nat.le_refl _
  | cons e rest ih =>
      unfold kept entriesCost at ih ⊢
      rw [List.filter_cons]
      split
      · exact Nat.add_le_add_left ih _
      · exact ih.trans (Nat.le_add_left _ _)

/-- What redoing the records does. -/
def Redone (db next : DB) (rows : Rows) (entries : List WalEntry) : Prop :=
  ∃ change, Effect db next change ∧ change.rows.content = WalEntry.redo rows.content entries ∧
    change.logged = [] ∧ change.sent = [] ∧ change.cost = entriesCost entries

/-- Replaying complete lines redoes the records that are not passed over. -/
theorem replayLines_returns (entries : List WalEntry) (models : db.Models rows)
    (readsBack : ∀ e ∈ entries, e.ReadsBack)
    (held : ∀ e ∈ kept now entries, e.type = .set →
      ∃ value, db.volumes.localVM.Holds e.addr value)
    (roomy : room → db.Room (entriesCost (kept now entries))) :
    (replayLines now (entries.map .entry)).Returns room db fun _ next =>
      Redone db next rows (kept now entries) := by
  induction entries generalizing db rows with
  | nil => exact .pure ⟨_, .refl models, rfl, rfl, rfl, rfl⟩
  | cons e rest ih =>
      have back := readsBack e List.mem_cons_self
      have restBack : ∀ other ∈ rest, other.ReadsBack := fun other mem =>
        readsBack other (List.mem_cons_of_mem _ mem)
      rw [List.map_cons, replayLines, if_neg (Nat.not_lt.mpr back.line), back.wire_eq, replayEntry]
      by_cases skips : replaySkips now e
      · have keptEq : kept now (e :: rest) = kept now rest :=
          List.filter_cons_of_neg (by simpa using skips)
        rw [keptEq] at held roomy ⊢
        rw [if_pos skips]
        exact .bind_pure (ih models restBack held roomy)
      · have keptEq : kept now (e :: rest) = e :: kept now rest :=
          List.filter_cons_of_pos (by simpa using skips)
        rw [keptEq] at held roomy ⊢
        rw [if_neg skips]
        rw [entriesCost, List.map_cons, List.sum_cons] at roomy
        refine .bind (applyEntry_returns models back.key_fits
          (held e List.mem_cons_self) fun enough => (roomy enough).mono (Nat.le_add_right _ _)) ?_
        rintro _ applied ⟨row, cached, effect, rowEq⟩
        refine .mono (ih effect.models restBack ?_ fun enough => effect.room _ (roomy enough)) ?_
        · intro other mem isSet
          obtain ⟨value, holds⟩ := held other (List.mem_cons_of_mem _ mem) isSet
          exact ⟨value, effect.keeps.holds _ _ holds⟩
        · rintro _ next ⟨change, restEffect, contentEq, logEq, sentEq, costEq⟩
          refine ⟨_, effect.trans restEffect, ?_, ?_, ?_, ?_⟩
          · change change.rows.content = _
            rw [contentEq, WalEntry.redo_cons]
            congr 1
            change Rows.content (Function.update rows e.key row) = _
            rw [Rows.content_update, rowEq]
          · simp [Change.andThen, Change.row, logEq]
          · simp [Change.andThen, Change.row, sentEq]
          · simp [Change.andThen, Change.row, costEq, entriesCost]

/-! ## Rebuilding the expiry cache -/

theorem Models.cache {key : Key} {row : Row} (models : db.Models rows) (isRow : rows key = some row)
    (positive : 0 < row.expiresAt) :
    Models (db.cacheIn (shardIndex key) key (some (Time.ofNano row.expiresAt))) rows := by
  have sameContent : Represents db.hindex (Function.update rows.content key
      ((some row).map fun row => (row.addr, row.expiresAt))) := by
    rw [Function.update_eq_self_iff.mpr (Rows.content_eq_some.mpr ⟨row, isRow, rfl⟩).symm]
    exact models.index
  have fits : ∀ instant, some (Time.ofNano row.expiresAt) = some instant →
      ExpiryFits (some row) instant ∧ key.length ≤ 65535 := by
    intro instant same
    obtain rfl := Option.some.inj same
    refine ⟨.inr ⟨Int64.lt_iff_toInt_lt.mp positive, fun found foundEq => ?_⟩,
      key_fits models isRow⟩
    rw [Option.some.inj foundEq]
  have cached := models.update sameContent
    (fun _ same => Option.some.inj same ▸ models.holds key row isRow) fits
  rw [Function.update_eq_self_iff.mpr isRow.symm] at cached
  exact cached

/-- `rebuildExpiry` changes nothing but the expiry cache. -/
theorem rebuildExpiry_returns (models : db.Models rows) (nowNs : Int64) (order : RangeOrder Key) :
    (rebuildExpiry (Time.ofNano nowNs) order).Returns room db fun _ next =>
      next.Models rows ∧ ∃ expiry, next = { db with expiry := expiry } := by
  obtain ⟨calls, callsEq, enumerates⟩ := models.index.forEach_eq nowNs order
  unfold rebuildExpiry
  refine .bind_ask callsEq (.bind (.each
    (fun _ mid => mid.Models rows ∧ ∃ expiry, mid = { db with expiry := expiry }) ?_
    ⟨models, db.expiry, rfl⟩) fun _ next holds => .pure holds)
  rintro before visit after mid split ⟨midModels, expiry, rfl⟩
  have isCall : visit ∈ calls := by
    rw [show calls = before ++ visit :: after from split]
    simp
  obtain ⟨row, isRow, entryEq⟩ :=
    Rows.content_eq_some.mp ((enumerates.mem_iff visit).mp isCall).1
  obtain ⟨-, expiresAtEq⟩ := Prod.mk.inj entryEq
  by_cases positive : 0 < visit.expiresAt
  · rw [if_pos positive]
    refine .modify ⟨?_, _, rfl⟩
    rw [← expiresAtEq] at positive ⊢
    exact midModels.cache isRow positive
  · rw [if_neg positive]
    exact .pure ⟨midModels, expiry, rfl⟩

/-! ## Opening a directory -/

/-- A database whose index is about to be opened. -/
structure Closed (db : DB) : Prop where
  pool : db.volumes.Inv
  expiry_eq : db.expiry = fun _ => ∅
  logOK : db.LogOK

theorem Closed.models (closed : db.Closed) {hindex : Index.HashIndex}
    (represents : Represents hindex rows.content)
    (holds : ∀ key row, rows key = some row → db.volumes.localVM.Holds row.addr row.value) :
    Models { db with hindex := hindex } rows where
  index := represents
  pool := closed.pool
  holds := holds
  cached shard key isCached := by
    change ((db.expiry shard).lookup key).isSome at isCached
    rw [closed.expiry_eq] at isCached
    exact absurd isCached (by simp)
  expiring key instant isCached := by
    change (db.expiry (shardIndex key)).lookup key = some instant at isCached
    rw [closed.expiry_eq] at isCached
    exact absurd isCached (by simp)
  logOK := ⟨closed.logOK.walErr_eq, closed.logOK.writer_eq, closed.logOK.always⟩

/-- What a database takes over from its directory and its options. -/
structure StartedFrom (db : DB) (dir : Directory) (opt : DBOptions) : Prop where
  hindex_eq : db.hindex = Index.HashIndex.ofFiles dir.index dir.indexTmp
  localVM_eq : db.volumes.localVM = VolumeManager.newVolumeManager (opt.extraDrives + 1)
    opt.maxVolumeSize dir.volumes
  remotes_eq : db.volumes.remotes = dir.remotes
  factor_eq : db.volumes.replicationFactor =
    if opt.replicationFactor < 1 then 1 else opt.replicationFactor.toNat
  file_eq : db.walFile = dir.walLog
  queue_eq : db.walCh = []
  mode_eq : db.fsyncMode = opt.fsync
  replicas_eq : db.replicas = []

theorem start_closed {dir : Directory}
    (localInv : (VolumeManager.newVolumeManager (opt.extraDrives + 1) opt.maxVolumeSize
      dir.volumes).Inv)
    (remoteInv : 1 < opt.replicationFactor → ∀ remote ∈ dir.remotes, remote.server.Inv)
    (registry : ∀ id g, dir.registry.lookup id = some g → VolumePool.LocalFirst g.members)
    (order : RangeOrder UInt32) :
    (start dir opt order).Closed ∧ (start dir opt order).StartedFrom dir opt := by
  obtain ⟨volumes, volumesEq, inv, localEq, remotesEq, factorEq⟩ :=
    VolumePool.newVolumePool_inv opt.replicationFactor opt.cacheSize order localInv remoteInv
      registry
  have startEq : (start dir opt order).volumes = volumes := volumesEq
  rw [← startEq] at inv localEq remotesEq factorEq
  exact ⟨⟨inv, rfl, ⟨rfl, rfl, fun _ => ⟨rfl, rfl⟩⟩⟩,
    ⟨rfl, localEq, remotesEq, factorEq, rfl, rfl, rfl, rfl⟩⟩

/-- The size of a new index file. -/
def freshBytes : Nat :=
  Index.dataStart Index.defaultBucketCount.toNat

/-- Recovery from an index that counts no entries redoes the log. -/
theorem recover_replays (order : RangeOrder Key) (models : db.Models rows)
    (noEntries : db.hindex.entryCount = 0)
    (fileEq : db.walFile = entries.map .entry) (readsBack : ∀ e ∈ entries, e.ReadsBack)
    (held : ∀ e ∈ kept now entries, e.type = .set →
      ∃ value, db.volumes.localVM.Holds e.addr value)
    (roomy : room → db.Room (entriesCost (kept now entries))) :
    (recover now order).Returns room db fun _ next =>
      Redone db next rows (kept now entries) := by
  have replayed := replayLines_returns entries models readsBack held roomy
  rw [← fileEq] at replayed
  unfold recover replayWAL
  refine .bind_state ?_
  rw [if_pos noEntries]
  exact .wrap (.bind_state replayed)

/-- Opening a database without an index replays the log. -/
theorem newBriseDB_replays (order : RangeOrder Key) (closed : db.Closed)
    (noIndex : db.hindex = Index.HashIndex.ofFiles [] [])
    (fileEq : db.walFile = entries.map .entry) (readsBack : ∀ e ∈ entries, e.ReadsBack)
    (held : ∀ e ∈ kept now entries, e.type = .set →
      ∃ value, db.volumes.localVM.Holds e.addr value)
    (roomy : room → freshBytes + entriesCost (kept now entries) ≤ File.maxSize ∧
      db.volumes.Room (entriesCost (kept now entries))) :
    (newBriseDB now order).Returns room db fun _ next =>
      ∃ hindex, hindex.f.length = freshBytes ∧
        Redone { db with hindex := hindex } next (fun _ => none) (kept now entries) := by
  unfold newBriseDB onIndex
  refine .bind (.wrap (.zoom (noIndex ▸ Index.openHashIndex_represents 0 fun enough =>
      le_trans (Nat.le_add_right _ _) (roomy enough).1))) ?_
  rintro _ _ ⟨hindex, rfl, represents, noEntries, lengthEq⟩
  have models : Models { db with hindex := hindex } fun _ => none :=
    closed.models represents nofun
  refine .mono (recover_replays order models noEntries fileEq readsBack held ?_) ?_
  · intro enough
    refine ⟨?_, (roomy enough).2⟩
    change hindex.f.length + _ ≤ _
    rw [lengthEq]
    exact (roomy enough).1
  · exact fun _ next redone => ⟨hindex, lengthEq, redone⟩

/-- Opening a database whose index counts entries takes the index over. -/
theorem newBriseDB_takesIndex {nowNs : Int64} (order : RangeOrder Key) (closed : db.Closed)
    {count : Int64} (fileHolds : FileHolds db.hindex rows.content count) (counts : count ≠ 0)
    (holds : ∀ key row, rows key = some row → db.volumes.localVM.Holds row.addr row.value) :
    (newBriseDB (Time.ofNano nowNs) order).Returns room db fun _ next => next.Models rows := by
  unfold newBriseDB onIndex
  refine .bind (.wrap (.zoom (fileHolds.open 0))) ?_
  rintro _ _ ⟨hindex, rfl, represents, countEq, _⟩
  have models := closed.models represents holds
  unfold recover
  refine .bind_state ?_
  rw [if_neg (by rw [countEq]; exact counts)]
  exact .mono (.wrap (rebuildExpiry_returns models nowNs order)) fun _ _ both => both.1

/-- Opening a database whose index counts no entries replays the log over the
index. -/
theorem newBriseDB_overlays (order : RangeOrder Key) (closed : db.Closed)
    (fileHolds : FileHolds db.hindex rows.content 0)
    (holds : ∀ key row, rows key = some row → db.volumes.localVM.Holds row.addr row.value)
    (fileEq : db.walFile = entries.map .entry) (replays : ∀ e ∈ entries, Replays now e)
    (held : ∀ e ∈ entries, e.type = .set → ∃ value, db.volumes.localVM.Holds e.addr value)
    (roomy : room → db.Room (entriesCost entries)) :
    (newBriseDB now order).Returns room db fun _ next =>
      ∃ after, next.Models after ∧
        after.content = WalEntry.redo rows.content entries ∧
        db.volumes.localVM.Extends next.volumes.localVM := by
  unfold newBriseDB onIndex
  refine .bind (.wrap (.zoom (fileHolds.open 0))) ?_
  rintro _ _ ⟨hindex, rfl, represents, noEntries, lengthEq⟩
  have models := closed.models represents holds
  have keptEq := kept_eq_self replays
  rw [← keptEq] at held roomy
  refine .mono (recover_replays order models noEntries fileEq
    (fun e mem => (replays e mem).readsBack) held ?_) ?_
  · intro enough
    refine ⟨?_, (roomy enough).2⟩
    change hindex.f.length + _ ≤ _
    rw [lengthEq]
    exact (roomy enough).1
  · rintro _ next ⟨change, effect, contentEq, _⟩
    rw [keptEq] at contentEq
    exact ⟨change.rows, effect.models, contentEq, effect.keeps⟩

/-! ## A new directory -/

/-- The directory of a database that has never been opened. -/
def Directory.empty (remotes : List Remote) : Directory :=
  ⟨[], [], [], ∅, ∅, remotes⟩

/-- A database in a new directory. -/
structure Fresh (db : DB) (remotes : List Remote) (opt : DBOptions) : Prop where
  models : db.Models fun _ => none
  expiry_eq : db.expiry = fun _ => ∅
  log_eq : db.log = []
  file_eq : db.walFile = []
  count_eq : db.hindex.entryCount.toInt = 0
  mode_eq : db.fsyncMode = opt.fsync
  replicas_eq : db.replicas = []
  factor_eq : db.volumes.replicationFactor =
    if opt.replicationFactor < 1 then 1 else opt.replicationFactor.toNat
  localVM_eq : db.volumes.localVM = VolumeManager.newVolumeManager (opt.extraDrives + 1)
    opt.maxVolumeSize ∅
  drives_eq : db.volumes.localVM.drives = opt.extraDrives + 1
  room : ∀ bytes, (∀ remote ∈ remotes, remote.server.Room bytes) →
    freshBytes + bytes ≤ File.maxSize → db.Room bytes

/-- Without volume servers, only the local files need room. -/
theorem Fresh.roomAlone (fresh : Fresh db [] opt) (bytes : Nat)
    (fits : freshBytes + bytes ≤ File.maxSize) : db.Room bytes :=
  fresh.room bytes (fun _ isRemote => absurd isRemote List.not_mem_nil) fits

theorem Fresh.cost (fresh : Fresh db remotes opt)
    (single : opt.replicationFactor ≤ 1) (data : Bytes) :
    db.volumes.cost data = 8 + data.length := by
  rw [VolumePool.cost, fresh.factor_eq]
  split
  · rw [Nat.one_mul]
  · rw [show opt.replicationFactor = 1 by omega]
    exact Nat.one_mul _

/-- `NewBriseDB` on a new directory makes an empty index and finds no log. -/
theorem newBriseDB_empty (now : Time) (volumeOrder : RangeOrder UInt32) (order : RangeOrder Key) :
    (newBriseDB now order).Returns room (start (.empty remotes) opt volumeOrder) fun _ next =>
      ∃ hindex, next = { start (.empty remotes) opt volumeOrder with hindex := hindex } ∧
        Represents hindex (fun _ => none) ∧ hindex.entryCount = 0 ∧
        hindex.f.length = freshBytes := by
  unfold newBriseDB onIndex
  refine .bind (.wrap (.zoom (Index.openHashIndex_represents 0 fun _ => by decide +kernel))) ?_
  rintro _ _ ⟨hindex, rfl, represents, noEntries, lengthEq⟩
  unfold recover replayWAL
  refine .bind_state ?_
  rw [if_pos noEntries]
  refine .wrap (.bind_state (.pure ?_))
  exact ⟨hindex, rfl, represents, noEntries, lengthEq⟩

/-- With volume ids left, it gives a new database. -/
theorem newBriseDB_fresh (now : Time) (volumeOrder : RangeOrder UInt32) (order : RangeOrder Key)
    (remoteInv : 1 < opt.replicationFactor → ∀ remote ∈ remotes, remote.server.Inv)
    (unused : (VolumeManager.newVolumeManager (opt.extraDrives + 1) opt.maxVolumeSize
      ∅).volumes.lookup VolumeManager.lastID = none) :
    (newBriseDB now order).Returns room (start (.empty remotes) opt volumeOrder) fun _ next =>
      Fresh next remotes opt := by
  obtain ⟨localInv, drivesEq, localRoom⟩ :=
    VolumeManager.newVolumeManager_empty opt.maxVolumeSize (Nat.succ_pos opt.extraDrives) unused
  obtain ⟨closed, started⟩ := @start_closed opt (.empty remotes) localInv remoteInv
    (by simp [Directory.empty]) volumeOrder
  refine .mono (newBriseDB_empty now volumeOrder order) ?_
  rintro _ _ ⟨hindex, rfl, represents, noEntries, lengthEq⟩
  exact
    { models := closed.models represents nofun
      expiry_eq := closed.expiry_eq
      log_eq := rfl
      file_eq := rfl
      count_eq := by rw [noEntries]; rfl
      mode_eq := started.mode_eq
      replicas_eq := started.replicas_eq
      factor_eq := started.factor_eq
      localVM_eq := started.localVM_eq
      drives_eq := (congrArg VolumeManager.drives started.localVM_eq).trans drivesEq
      room := fun bytes remoteRoom fits => by
        refine ⟨by change hindex.f.length + bytes ≤ _; rw [lengthEq]; exact fits, ?_, ?_⟩
        · change (start (.empty remotes) opt volumeOrder).volumes.localVM.Room bytes
          rw [started.localVM_eq]
          exact localRoom.mono (le_trans (Nat.le_add_left _ _) fits)
        · change ∀ remote ∈ (start (.empty remotes) opt volumeOrder).volumes.remotes, _
          rw [started.remotes_eq]
          exact remoteRoom }

end

end DB

end BriseDB
