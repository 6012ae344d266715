import BriseDB.Store.Models

/-!
# Effects of the session calls

Each writing call of a session has one lemma that says what it does to the map a
database stands for, to the log and to the replicas.  The lemmas are put together
from those about blobs, locked sections, log and fan-out.
-/

namespace BriseDB

open Index (Represents)
open Session (blobExpiresAt)

namespace DB

section

variable {db : DB} {rows : Rows} {room : Prop} {key : Key}

/-! ## Blobs -/

/-- The change made by storing a blob. -/
def Change.blob (db : DB) (rows : Rows) (data : Bytes) : Change :=
  { Change.idle rows db.expiry with cost := db.volumes.cost data }

theorem Models.with_volumes (models : db.Models rows) {volumes : VolumePool} (inv : volumes.Inv)
    (keeps : db.volumes.localVM.Extends volumes.localVM) :
    Models { db with volumes := volumes } rows where
  index := models.index
  pool := inv
  holds key row isRow := keeps.holds _ _ (models.holds key row isRow)
  cached := models.cached
  expiring := models.expiring
  logOK := ⟨models.logOK.walErr_eq, models.logOK.writer_eq, models.logOK.always⟩

theorem onVolumes_stored {call : Exec VolumePool NeedleAddr} {data : Bytes}
    (models : db.Models rows)
    (returns : call.Returns room db.volumes fun addr next =>
      VolumePool.Stored db.volumes next addr data) :
    (onVolumes call).Returns room db fun addr next =>
      Effect db next (.blob db rows data) ∧ next.volumes.localVM.Holds addr data := by
  refine .mono (.zoom returns) ?_
  rintro addr _ ⟨volumes, rfl, stored⟩
  refine ⟨?_, stored.holds⟩
  exact
    { models := models.with_volumes stored.inv stored.keeps
      expiry_eq := rfl
      keeps := stored.keeps
      factor_eq := stored.factor_eq
      mode_eq := rfl
      log_eq := by simp [Change.blob, Change.idle, log]
      replicas_eq := by simp [Change.blob, Change.idle]
      room := fun bytes roomy =>
        ⟨(roomy.mono (Nat.le_add_left _ _)).1, stored.room bytes roomy.2⟩
      count_eq := rfl }

/-- A call that only consults the pool leaves the database as it is. -/
theorem Models.effect_consulted (models : db.Models rows) {volumes : VolumePool}
    (consulted : VolumePool.Consulted db.volumes volumes) :
    Effect db { db with volumes := volumes } (.idle rows db.expiry) where
  models := models.with_volumes consulted.inv (by rw [consulted.localVM_eq]; exact .refl _)
  expiry_eq := rfl
  keeps := by
    change db.volumes.localVM.Extends volumes.localVM
    rw [consulted.localVM_eq]
    exact .refl _
  factor_eq := consulted.factor_eq
  mode_eq := rfl
  log_eq := by simp [Change.idle, log]
  replicas_eq := by simp [Change.idle]
  room bytes roomy := by
    have enough : db.Room bytes := roomy.mono (Nat.le_add_left _ _)
    exact ⟨enough.1, consulted.room enough.2⟩
  count_eq := rfl

/-! ## Log and replicas -/

/-- The database after a round of the flusher. -/
def drained (db : DB) : DB :=
  { db with
    walFile := db.log
    walCh := []
    walSynced :=
      if db.fsyncMode = .always ∧ db.walCh ≠ [] then db.log.length else db.walSynced }

theorem drain_returns (writer : db.walWriterErr = none) :
    drain.Returns room db fun result next => result = .ok () ∧ next = db.drained := by
  unfold drain
  refine .bind_state ?_
  cases queued : db.walCh with
  | nil =>
      have unchanged : db.drained = db := by
        cases db
        simp_all [drained, log]
      exact .pure ⟨rfl, unchanged.symm⟩
  | cons e rest =>
      have flushed : (flushBatch (e :: rest)).Returns room { db with walCh := [] }
          fun _ next => next = db.drained := by
        unfold flushBatch
        refine .bind_state ?_
        simp only [writer]
        refine .bind_outcome (.bind_put ?_)
        split
        · next always =>
          refine .bind_outcome (.modify ?_)
          simp [drained, log, queued, always, writer]
        · next notAlways =>
          refine .pure ?_
          simp [drained, log, queued, notAlways, writer]
      refine .bind_put (.bind_attempt flushed ?_)
      rintro _ _ rfl
      exact .pure ⟨rfl, rfl⟩

/-- A change of the log alone. -/
theorem Models.effect_log (models : db.Models rows) {file : List WalLine} {synced : Nat}
    {queue logged : List WalEntry}
    (logEq : file ++ queue.map .entry = db.log ++ logged.map .entry)
    (always : db.fsyncMode = .always → queue = [] ∧ synced = file.length) :
    Effect db { db with walFile := file, walSynced := synced, walCh := queue }
      { Change.idle rows db.expiry with logged := logged } where
  models := ⟨models.index, models.pool, models.holds, models.cached, models.expiring,
    ⟨models.logOK.walErr_eq, models.logOK.writer_eq, always⟩⟩
  expiry_eq := rfl
  keeps := .refl _
  factor_eq := rfl
  mode_eq := rfl
  log_eq := logEq
  replicas_eq := by simp [Change.idle]
  room bytes roomy := (Nat.zero_add bytes) ▸ roomy
  count_eq := rfl

theorem drained_effect (models : db.Models rows) :
    Effect db db.drained (.idle rows db.expiry) := by
  have sameLog : db.log ++ ([] : List WalEntry).map .entry =
      db.log ++ ([] : List WalEntry).map .entry := rfl
  refine models.effect_log sameLog fun always => ⟨rfl, ?_⟩
  obtain ⟨noQueue, synced⟩ := models.logOK.always always
  simp [noQueue, log, synced]

/-- `writeWAL` adds its record to the log, without the value. -/
theorem writeWAL_returns (models : db.Models rows) (op : WalEntry) :
    (writeWAL op).Returns room db fun _ next =>
      Effect db next { Change.idle rows db.expiry with logged := [{ op with value := [] }] } := by
  unfold writeWAL
  refine .bind_state ?_
  simp only
  split
  · next always =>
    refine .bind_put (.bind (drain_returns models.logOK.writer_eq) ?_)
    rintro _ _ ⟨rfl, rfl⟩
    refine .pure (models.effect_log ?_ fun _ => ⟨rfl, ?_⟩)
    · simp [log]
    · simp [always]
  · next notAlways =>
    have healthy := models.logOK.walErr_eq
    split
    · refine .put (models.effect_log ?_ fun always => absurd always notAlways)
      simp [log]
    · next stored isStored => cases healthy.symm.trans isStored

/-- `fanout` offers its record to every replica. -/
theorem fanout_returns (models : db.Models rows) (e : WalEntry) :
    (fanout e).Returns room db fun _ next =>
      Effect db next { Change.idle rows db.expiry with sent := [e] } := by
  refine .modify ?_
  exact
    { models := ⟨models.index, models.pool, models.holds, models.cached, models.expiring,
        ⟨models.logOK.walErr_eq, models.logOK.writer_eq, models.logOK.always⟩⟩
      expiry_eq := rfl
      keeps := .refl _
      factor_eq := rfl
      mode_eq := rfl
      log_eq := by simp [Change.idle, log]
      replicas_eq := rfl
      room := fun bytes roomy => (Nat.zero_add bytes) ▸ roomy
      count_eq := rfl }

/-- Logging a record and sending one to the replicas. -/
theorem record_returns (models : db.Models rows) (op sent : WalEntry) :
    (writeWAL op >>= fun _ => fanout sent).Returns room db fun _ next =>
      Effect db next { Change.idle rows db.expiry with
        logged := [{ op with value := [] }], sent := [sent] } := by
  refine .bind (writeWAL_returns models op) ?_
  intro _ logged logEffect
  refine .mono (fanout_returns logEffect.models sent) ?_
  intro _ last sentEffect
  refine (logEffect.trans sentEffect).of_eq ?_
  simp only [Change.andThen, Change.idle, Change.mk.injEq, List.nil_append, List.append_nil,
    true_and, logEffect.expiry_eq]
  rfl

/-! ## Writing a key -/

theorem expiryFits_unixNano {instant : Time} (positive : 0 < instant) {row : Row}
    (expiresAtEq : row.expiresAt = Time.unixNano instant) : ExpiryFits (some row) instant := by
  by_cases inRange : instant < 2 ^ 63
  · refine .inr ⟨positive, fun found isRow => ?_⟩
    obtain rfl := Option.some.inj isRow
    rw [expiresAtEq]
    exact Time.ofNano_unixNano (le_trans (by norm_num) positive.le) inRange
  · exact .inl (not_lt.mp inRange)

theorem expiryFits_cachedFor {row : Row} {instant : Time}
    (isCached : cachedFor row.expiresAt = some instant) : ExpiryFits (some row) instant := by
  unfold cachedFor at isCached
  split at isCached
  · next positive =>
    obtain rfl := Option.some.inj isCached
    refine .inr ⟨Int64.lt_iff_toInt_lt.mp positive, fun found isRow => ?_⟩
    rw [Option.some.inj isRow]
  · cases isCached

/-- The change made by a call that writes one key. -/
def Change.write (db : DB) (rows : Rows) (key : Key) (row : Row) (cached : Option Time)
    (sent : List WalEntry) : Change :=
  { rows := Function.update rows key (some row)
    expiry := (db.cacheIn (shardIndex key) key cached).expiry
    logged := [WalEntry.ofSet key row.addr row.expiresAt]
    sent := sent
    cost := db.volumes.cost row.value + indexCost key
    count := (· + 1) }

theorem cacheIn_congr {other : DB} (same : other.expiry = db.expiry) (shard : Fin numShards)
    (cached : Option Time) :
    (other.cacheIn shard key cached).expiry = (db.cacheIn shard key cached).expiry := by
  simp only [cacheIn, same]

section Write

variable {blob : Exec DB NeedleAddr} {locked : NeedleAddr → Exec DB Unit} {data : Bytes}
  {expiresAt : Int64} {cached : Option Time}

/-- What a locked section does that stores a row with the given expiry. -/
def StoresRow (room : Prop) (rows : Rows) (key : Key) (data : Bytes) (expiresAt : Int64)
    (cached : Option Time) (locked : NeedleAddr → Exec DB Unit) : Prop :=
  ∀ (mid : DB) (addr : NeedleAddr), mid.Models rows → mid.volumes.localVM.Holds addr data →
    (room → mid.Room (indexCost key)) → (locked addr).Returns room mid fun _ next =>
      Effect mid next (.row mid rows key (some ⟨addr, expiresAt, data⟩) cached)

theorem storesRow_indexFirst (keyFits : key.length ≤ 65535) (context : String)
    (fits : ∀ addr instant, cached = some instant →
      ExpiryFits (some ⟨addr, expiresAt, data⟩) instant) :
    StoresRow room rows key data expiresAt cached fun addr =>
      Session.setIndexFirst context key addr expiresAt cached := by
  intro mid addr models holds roomy
  exact @setIndexFirst_returns mid rows room key models keyFits context
    ⟨addr, expiresAt, data⟩ cached
    holds (fits addr) roomy

theorem storesRow_expiryFirst (keyFits : key.length ≤ 65535) (context : String)
    (fits : ∀ addr instant, cached = some instant →
      ExpiryFits (some ⟨addr, expiresAt, data⟩) instant) :
    StoresRow room rows key data expiresAt cached fun addr =>
      Session.setExpiryFirst context key addr expiresAt cached := by
  intro mid addr models holds roomy
  exact @setExpiryFirst_returns mid rows room key models keyFits context
    ⟨addr, expiresAt, data⟩ cached
    holds (fits addr) roomy

/-- Blob, locked section and log together write a key. -/
theorem Effect.write {written updated next : DB} {row : Row}
    (blobEffect : Effect db written (.blob db rows row.value))
    (rowEffect : Effect written updated (.row written rows key (some row) cached))
    (logEffect : Effect updated next { Change.idle (Function.update rows key (some row))
      updated.expiry with logged := [WalEntry.ofSet key row.addr row.expiresAt] }) :
    Effect db next (.write db rows key row cached []) := by
  refine ((blobEffect.trans rowEffect).trans logEffect).of_eq ?_
  simp only [Change.andThen, Change.blob, Change.row, Change.idle, Change.write,
    Change.mk.injEq, List.nil_append, List.append_nil, Nat.add_zero, true_and]
  refine ⟨?_, rfl⟩
  rw [rowEffect.expiry_eq]
  exact cacheIn_congr blobEffect.expiry_eq _ _

/-- The common part of the writing calls, followed by something else. -/
theorem write_then_returns
    (stores : blob.Returns room db fun addr next =>
      Effect db next (.blob db rows data) ∧ next.volumes.localVM.Holds addr data)
    (lockedStores : StoresRow room rows key data expiresAt cached locked)
    (roomy : room → db.Room (db.volumes.cost data + indexCost key))
    {finish : NeedleAddr → Exec DB Unit} {post : Unit → DB → Prop}
    (rest : ∀ addr written updated,
      Effect db written (.blob db rows data) →
      Effect written updated (.row written rows key (some ⟨addr, expiresAt, data⟩) cached) →
      (finish addr).Returns room updated post) :
    (blob >>= fun addr => locked addr >>= fun _ => finish addr).Returns room db post := by
  refine .bind stores ?_
  rintro addr written ⟨blobEffect, holds⟩
  refine .bind (lockedStores written addr blobEffect.models holds
    fun enough => blobEffect.room _ (roomy enough)) ?_
  intro _ updated rowEffect
  exact rest addr written updated blobEffect rowEffect

end Write

/-- The change made by a call that logs a write and sends it to the replicas. -/
def Change.published (db : DB) (rows : Rows) (key : Key) (row : Row) (cached : Option Time) :
    Change :=
  .write db rows key row cached [WalEntry.ofValue key row.value row.expiresAt]

/-- Log and replicas after the common part of the writing calls. -/
theorem publish_returns {written updated : DB} (row : Row) {cached : Option Time}
    (blobEffect : Effect db written (.blob db rows row.value))
    (rowEffect : Effect written updated (.row written rows key (some row) cached)) :
    (do
      writeWAL (WalEntry.ofSet key row.addr row.expiresAt)
      Session.fanoutSet key row.value row.expiresAt).Returns room updated fun _ next =>
        Effect db next (.published db rows key row cached) := by
  refine .mono (record_returns rowEffect.models _ _) ?_
  intro _ last recorded
  refine ((blobEffect.trans rowEffect).trans recorded).of_eq ?_
  simp only [Change.andThen, Change.blob, Change.row, Change.idle, Change.published, Change.write,
    Change.mk.injEq, List.nil_append, Nat.add_zero, true_and]
  refine ⟨?_, rfl, rfl⟩
  rw [rowEffect.expiry_eq]
  exact cacheIn_congr blobEffect.expiry_eq _ _

section Calls

variable {value : Bytes} (models : db.Models rows) (keyFits : key.length ≤ 65535)
  (roomy : room → db.Room (db.volumes.cost value + indexCost key))

include models roomy

theorem write_blob_returns (context : String) :
    (Exec.wrap context (onVolumes (VolumePool.write value))).Returns room db fun addr next =>
      Effect db next (.blob db rows value) ∧ next.volumes.localVM.Holds addr value :=
  .wrap (onVolumes_stored models (VolumePool.write_returns models.pool
    fun enough => ((roomy enough).mono (Nat.le_add_right _ _)).2))

include keyFits

/-- `Set` outside a transaction. -/
theorem setNow_returns :
    (Session.setNow key value).Returns room db fun _ next =>
      ∃ addr, Effect db next (.published db rows key ⟨addr, 0, value⟩ none) :=
  write_then_returns (write_blob_returns models roomy _)
    (storesRow_indexFirst keyFits _ (by simp)) roomy fun addr _ _ blobEffect rowEffect =>
      Exec.Returns.mono (publish_returns ⟨addr, _, _⟩ blobEffect rowEffect)
        fun _ _ effect => ⟨addr, effect⟩

/-- `SetEX` outside a transaction. -/
theorem setEXNow_returns {exp : Time} (positive : 0 < exp) :
    (Session.setEXNow key value exp).Returns room db fun _ next =>
      ∃ addr, Effect db next
        (.published db rows key ⟨addr, Time.unixNano exp, value⟩ (some exp)) :=
  write_then_returns (write_blob_returns models roomy _)
    (storesRow_indexFirst keyFits _ fun _ _ isCached =>
      Option.some.inj isCached ▸ expiryFits_unixNano positive rfl) roomy
    fun addr _ _ blobEffect rowEffect =>
      Exec.Returns.mono (publish_returns ⟨addr, _, _⟩ blobEffect rowEffect)
        fun _ _ effect => ⟨addr, effect⟩

section Blob

variable {exp : Option Time} (positive : ∀ instant, exp = some instant → 0 < instant)

include positive

omit models roomy in
theorem storesRow_blob (context : String) :
    StoresRow room rows key value (blobExpiresAt exp) exp fun addr =>
      Session.setExpiryFirst context key addr (blobExpiresAt exp) exp :=
  storesRow_expiryFirst keyFits _ fun _ instant isExp =>
    expiryFits_unixNano (positive instant isExp) (by rw [isExp]; rfl)

/-- `SetBlob`. -/
theorem setBlobNow_returns :
    (Session.setBlobNow key value exp).Returns room db fun _ next =>
      ∃ addr, Effect db next (.published db rows key ⟨addr, blobExpiresAt exp, value⟩ exp) :=
  write_then_returns (write_blob_returns models roomy _) (storesRow_blob keyFits positive _) roomy
    fun addr _ _ blobEffect rowEffect =>
      Exec.Returns.mono (publish_returns ⟨addr, _, _⟩ blobEffect rowEffect)
        fun _ _ effect => ⟨addr, effect⟩

/-- `SetBlobStream` with a reader that yields the announced bytes. -/
theorem setBlobStreamNow_returns {size : Int64} (sizeEq : (value.length : Int) = size.toInt)
    (unused : db.volumes.localVM.volumes.lookup VolumeManager.lastID = none) :
    (Session.setBlobStreamNow key ⟨value, none⟩ size exp).Returns room db fun _ next =>
      ∃ addr, Effect db next (.write db rows key ⟨addr, blobExpiresAt exp, value⟩ exp []) := by
  refine write_then_returns (.wrap (onVolumes_stored models
    (VolumePool.writeStream_returns models.pool unused sizeEq
      fun enough => ((roomy enough).mono (Nat.le_add_right _ _)).2)))
    (storesRow_blob keyFits positive _) roomy fun addr _ _ blobEffect rowEffect => ?_
  exact .mono (writeWAL_returns rowEffect.models _)
    fun _ _ logEffect => ⟨addr, Effect.write blobEffect rowEffect logEffect⟩

end Blob

end Calls

/-! ## Deleting a key -/

/-- The change made by a deletion that finds its key. -/
def Change.removed (db : DB) (rows : Rows) (key : Key) : Change :=
  { Change.row db rows key none none with
    logged := [WalEntry.ofDelete key]
    sent := [WalEntry.ofDelete key] }

/-- `Delete` outside a transaction. -/
theorem deleteNow_returns (models : db.Models rows) (roomy : room → db.Room (indexCost key)) :
    (Session.deleteNow key).Returns room db fun _ next =>
      if (rows key).isSome then Effect db next (.removed db rows key) else next = db := by
  unfold Session.deleteNow
  refine .bind (deleteLocked_returns models roomy) ?_
  rintro _ updated ⟨rfl, holds⟩
  cases isRow : rows key with
  | none =>
      rw [isRow] at holds
      exact .pure holds
  | some row =>
      rw [isRow] at holds
      have rowEffect : Effect db updated (.row db rows key none none) := holds
      simp only [Option.isSome_some, if_true]
      refine .mono (record_returns rowEffect.models _ _) ?_
      intro _ last recorded
      refine (rowEffect.trans recorded).of_eq ?_
      simp only [Change.andThen, Change.row, Change.idle, Change.removed, Change.mk.injEq,
        List.nil_append, Nat.add_zero, true_and, rowEffect.expiry_eq]
      exact ⟨rfl, rfl⟩

/-! ## Reading a key -/

/-- What `Get` shows of a row. -/
def visible (now : Time) : Option Row → Option Bytes
  | none => none
  | some row => if Session.expiredAt now row.expiresAt then none else some row.value

/-- `Get` outside a transaction. -/
theorem getNow_returns (models : db.Models rows) (now : Time) :
    (Session.getNow key now).Returns room db fun found next =>
      found = visible now (rows key) ∧ Effect db next (.idle rows db.expiry) := by
  unfold Session.getNow
  refine .bind_ask (get_index_eq models key) ?_
  cases isRow : rows key with
  | none => exact .pure ⟨rfl, .refl models⟩
  | some row =>
      dsimp only [Option.map_some, visible]
      split
      · exact .pure ⟨rfl, .refl models⟩
      · refine .bind_attempt (.zoom
          (VolumePool.read_returns models.pool (models.holds key row isRow))) ?_
        rintro _ _ ⟨volumes, rfl, rfl, consulted⟩
        exact .pure ⟨rfl, models.effect_consulted consulted⟩

/-- The answer of `TTL` for a row. -/
def rowTTL (now : Time) (row : Option Row) : Int :=
  Session.entryTTL now (row.map fun row => (row.addr, row.expiresAt))

/-- `TTL` outside a transaction. -/
theorem ttlNow_returns (models : db.Models rows) (now : Time) :
    (Session.ttlNow key now).Returns room db fun answer next =>
      answer = rowTTL now (rows key) ∧ next = db :=
  .bind_ask (get_index_eq models key) (.pure ⟨rfl, rfl⟩)

/-! ## Applying a record -/

/-- `applyEntry` of a SET record whose address holds a value. -/
theorem applyEntry_set_returns (models : db.Models rows) {op : WalEntry} (isSet : op.type = .set)
    (keyFits : op.key.length ≤ 65535) {value : Bytes}
    (holds : db.volumes.localVM.Holds op.addr value)
    (roomy : room → db.Room (indexCost op.key)) :
    (applyEntry op).Returns room db fun _ next =>
      Effect db next (.row db rows op.key (some ⟨op.addr, op.expiresAt, value⟩)
        (cachedFor op.expiresAt)) := by
  unfold applyEntry
  rw [isSet]
  refine .bind_attempt (onIndex_set_returns models keyFits op.addr op.expiresAt roomy) ?_
  rintro _ _ ⟨hindex, rfl, index, countEq, lengthEq⟩
  have effect : Effect db { db.cacheIn (shardIndex op.key) op.key (cachedFor op.expiresAt) with
      hindex := hindex } (.row db rows op.key (some ⟨op.addr, op.expiresAt, value⟩)
        (cachedFor op.expiresAt)) :=
    models.effect_update index countEq lengthEq.le
      (fun _ isRow => Option.some.inj isRow ▸ holds)
      fun _ isCached => ⟨expiryFits_cachedFor isCached, keyFits⟩
  refine .bind_modify ?_
  unfold onVolumes
  rw [Exec.attempt_zoom]
  refine .bind_zoom (VolumePool.attempt_ensureVolume_returns effect.models.pool op.volumeID) ?_
  intro _ volumes consulted
  refine .pure ((effect.trans (effect.models.effect_consulted consulted)).of_eq ?_)
  simp only [Change.andThen, Change.idle, Change.row, List.append_nil, Nat.add_zero]
  rfl

/-- `applyEntry` of a DELETE record. -/
theorem applyEntry_delete_returns (models : db.Models rows) {op : WalEntry}
    (isDelete : op.type = .delete) (keyFits : op.key.length ≤ 65535)
    (roomy : room → db.Room (indexCost op.key)) :
    (applyEntry op).Returns room db fun _ next =>
      Effect db next (.row db rows op.key none none) := by
  unfold applyEntry
  rw [isDelete]
  refine .bind_attempt (onIndex_delete_returns models keyFits roomy) ?_
  rintro _ _ ⟨hindex, rfl, index, countEq, lengthEq⟩
  exact .modify (models.effect_remove index countEq lengthEq)

end

end DB

end BriseDB
