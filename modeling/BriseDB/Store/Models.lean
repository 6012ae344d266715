import BriseDB.Index.Refinement
import BriseDB.Store.Session
import BriseDB.Volume.Blobs

/-!
# What a database stores

`Models db rows` says that a database stands for a map from keys to rows: the
index holds the addresses and expiries, the volumes hold the values, and the
expiry cache agrees with the index as far as eviction relies on it.  It holds as
long as no write has failed.

`Effect db next change` says how a call changes that map, and everything else
other parts of the system see of the call: the log, the replica channels, the
expiry cache and the entry count.
-/

namespace BriseDB

open Index (Content Represents entryOverhead)

/-- What the database stores under a key. -/
structure Row where
  addr : NeedleAddr
  expiresAt : Int64
  value : Bytes
  deriving DecidableEq, Repr

/-- The map a database stands for. -/
abbrev Rows :=
  Key → Option Row

/-- The index part of the map. -/
def Rows.content (rows : Rows) : Content :=
  fun key => (rows key).map fun row => (row.addr, row.expiresAt)

theorem Rows.content_update (rows : Rows) (key : Key) (row : Option Row) :
    Rows.content (Function.update rows key row) =
      Function.update rows.content key (row.map fun row => (row.addr, row.expiresAt)) := by
  funext other
  by_cases same : other = key
  · subst same
    simp [content]
  · simp [content, Function.update_of_ne same]

theorem Rows.content_eq_none {rows : Rows} {key : Key} :
    rows.content key = none ↔ rows key = none :=
  Option.map_eq_none_iff

theorem Rows.content_eq_some {rows : Rows} {key : Key} {entry : NeedleAddr × Int64} :
    rows.content key = some entry ↔
      ∃ row, rows key = some row ∧ (row.addr, row.expiresAt) = entry :=
  Option.map_eq_some_iff

namespace DB

/-- The log as the flusher will have written it. -/
def log (db : DB) : List WalLine :=
  db.walFile ++ db.walCh.map .entry

/-- No write of the log has failed.  With `FsyncAlways` nothing waits, and all of
the log is on disk. -/
structure LogOK (db : DB) : Prop where
  walErr_eq : db.walErr = none
  writer_eq : db.walWriterErr = none
  always : db.fsyncMode = .always → db.walCh = [] ∧ db.walSynced = db.walFile.length

/-- A cached instant never lets eviction remove a row that has not expired: it is
the row's own expiry, or it is out of the range of the clock. -/
def ExpiryFits (row : Option Row) (instant : Time) : Prop :=
  2 ^ 63 ≤ instant ∨ 0 < instant ∧ ∀ found, row = some found → Time.ofNano found.expiresAt = instant

/-- The database stands for `rows`. -/
structure Models (db : DB) (rows : Rows) : Prop where
  index : Represents db.hindex rows.content
  pool : db.volumes.Inv
  holds : ∀ key row, rows key = some row → db.volumes.localVM.Holds row.addr row.value
  cached : ∀ shard key, ((db.expiry shard).lookup key).isSome →
    shard = shardIndex key ∧ key.length ≤ 65535
  expiring : ∀ key instant, db.expiring key = some instant → ExpiryFits (rows key) instant
  logOK : db.LogOK

/-- The index and every volume file can grow by `bytes`. -/
def Room (db : DB) (bytes : Nat) : Prop :=
  db.hindex.f.length + bytes ≤ File.maxSize ∧ db.volumes.Room bytes

theorem Room.mono {db : DB} {more less : Nat} (le : less ≤ more) (roomy : db.Room more) :
    db.Room less :=
  ⟨(Nat.add_le_add_left le _).trans roomy.1, roomy.2.mono le⟩

/-- The outside view of a call: the map and the expiry cache after it, the records it
logged and sent to the replicas, the bytes it took at most, and what it did to the
entry count. -/
structure Change where
  rows : Rows
  expiry : Fin numShards → Table Key Time
  logged : List WalEntry
  sent : List WalEntry
  cost : Nat
  count : Int → Int

/-- `next` is `db` after a change. -/
structure Effect (db next : DB) (change : Change) : Prop where
  models : next.Models change.rows
  expiry_eq : next.expiry = change.expiry
  keeps : db.volumes.localVM.Extends next.volumes.localVM
  factor_eq : next.volumes.replicationFactor = db.volumes.replicationFactor
  mode_eq : next.fsyncMode = db.fsyncMode
  log_eq : next.log = db.log ++ change.logged.map .entry
  replicas_eq : next.replicas =
    db.replicas.map fun ch => change.sent.foldl (fun ch e => ch.push e) ch
  room : ∀ bytes, db.Room (change.cost + bytes) → next.Room bytes
  count_eq : next.hindex.entryCount.toInt = change.count db.hindex.entryCount.toInt

namespace Change

/-- Nothing changes. -/
def idle (rows : Rows) (expiry : Fin numShards → Table Key Time) : Change :=
  ⟨rows, expiry, [], [], 0, id⟩

/-- One change after the other. -/
def andThen (first second : Change) : Change :=
  { rows := second.rows
    expiry := second.expiry
    logged := first.logged ++ second.logged
    sent := first.sent ++ second.sent
    cost := first.cost + second.cost
    count := second.count ∘ first.count }

end Change

theorem Effect.refl {db : DB} {rows : Rows} (models : db.Models rows) :
    Effect db db (.idle rows db.expiry) where
  models := models
  expiry_eq := rfl
  keeps := .refl _
  factor_eq := rfl
  mode_eq := rfl
  log_eq := by simp [Change.idle]
  replicas_eq := by simp [Change.idle]
  room bytes roomy := (Nat.zero_add bytes) ▸ roomy
  count_eq := rfl

theorem Effect.trans {first second third : DB} {early late : Change}
    (left : Effect first second early) (right : Effect second third late) :
    Effect first third (early.andThen late) where
  models := right.models
  expiry_eq := right.expiry_eq
  keeps := left.keeps.trans right.keeps
  factor_eq := right.factor_eq.trans left.factor_eq
  mode_eq := right.mode_eq.trans left.mode_eq
  log_eq := by
    rw [right.log_eq, left.log_eq, Change.andThen, List.map_append, List.append_assoc]
  replicas_eq := by
    rw [right.replicas_eq, left.replicas_eq, List.map_map]
    exact List.map_congr_left fun ch _ => by simp [Change.andThen]
  room bytes roomy :=
    right.room bytes (left.room _ (by rw [← Nat.add_assoc]; exact roomy))
  count_eq := by rw [right.count_eq, left.count_eq]; rfl

/-- Effects with the same outside view. -/
theorem Effect.of_eq {db next : DB} {change same : Change} (effect : Effect db next change)
    (eq : change = same) : Effect db next same :=
  eq ▸ effect

/-! ## The index and the expiry cache -/

section

variable {db : DB} {rows : Rows} {room : Prop} {key : Key}

theorem cacheIn_lookup (shard : Fin numShards) (key : Key) (expiry : Option Time) (db : DB)
    (other : Fin numShards) (otherKey : Key) :
    ((db.cacheIn shard key expiry).expiry other).lookup otherKey =
      if other = shard ∧ otherKey = key then expiry else (db.expiry other).lookup otherKey := by
  unfold cacheIn
  by_cases sameShard : other = shard
  · subst sameShard
    simp only [Function.update_self, true_and]
    by_cases sameKey : otherKey = key
    · subst sameKey
      rw [if_pos rfl]
      cases expiry with
      | some instant => exact AList.lookup_insert _
      | none => exact AList.lookup_erase _ _
    · rw [if_neg sameKey]
      cases expiry with
      | some instant => exact AList.lookup_insert_ne sameKey
      | none => exact AList.lookup_erase_ne sameKey
  · simp only [Function.update_of_ne sameShard, sameShard, false_and, if_false]

theorem cacheIn_expiring (key : Key) (expiry : Option Time) (db : DB) (other : Key) :
    (db.cacheIn (shardIndex key) key expiry).expiring other =
      if other = key then expiry else db.expiring other := by
  unfold expiring
  rw [cacheIn_lookup]
  by_cases same : other = key
  · rw [if_pos ⟨by rw [same], same⟩, if_pos same]
  · rw [if_neg fun both => same both.2, if_neg same]

/-- Replacing the row and the cached expiry of one key. -/
theorem Models.update (models : db.Models rows) {hindex : Index.HashIndex} {row : Option Row}
    {cached : Option Time}
    (index : Represents hindex (Function.update rows.content key
      (row.map fun row => (row.addr, row.expiresAt))))
    (holds : ∀ found, row = some found → db.volumes.localVM.Holds found.addr found.value)
    (fits : ∀ instant, cached = some instant → ExpiryFits row instant ∧ key.length ≤ 65535) :
    Models { db.cacheIn (shardIndex key) key cached with hindex := hindex }
      (Function.update rows key row) where
  index := by rw [Rows.content_update]; exact index
  pool := models.pool
  holds other found isRow := by
    by_cases same : other = key
    · rw [same, Function.update_self] at isRow
      exact holds found isRow
    · rw [Function.update_of_ne same] at isRow
      exact models.holds other found isRow
  cached shard other isCached := by
    change (((db.cacheIn (shardIndex key) key cached).expiry shard).lookup other).isSome at isCached
    rw [cacheIn_lookup] at isCached
    split at isCached
    · next both =>
      obtain ⟨instant, isInstant⟩ := Option.isSome_iff_exists.mp isCached
      rw [both.1, both.2]
      exact ⟨rfl, (fits instant isInstant).2⟩
    · exact models.cached shard other isCached
  expiring other instant isCached := by
    change (db.cacheIn (shardIndex key) key cached).expiring other = some instant at isCached
    rw [cacheIn_expiring] at isCached
    by_cases same : other = key
    · rw [if_pos same] at isCached
      rw [same, Function.update_self]
      exact (fits instant isCached).1
    · rw [if_neg same] at isCached
      rw [Function.update_of_ne same]
      exact models.expiring other instant isCached
  logOK := ⟨models.logOK.walErr_eq, models.logOK.writer_eq, models.logOK.always⟩

/-- The bytes one index operation takes. -/
def indexCost (key : Key) : Nat :=
  entryOverhead + key.length

/-- What a row does to the entry count of the index. -/
def countRow : Option Row → Int → Int
  | some _ => (· + 1)
  | none => fun count => max 0 (count - 1)

/-- The change of one row. -/
def Change.row (db : DB) (rows : Rows) (key : Key) (row : Option Row) (cached : Option Time) :
    Change :=
  { rows := Function.update rows key row
    expiry := (db.cacheIn (shardIndex key) key cached).expiry
    logged := []
    sent := []
    cost := indexCost key
    count := countRow row }

/-- Replacing a row is the effect of replacing its index entry. -/
theorem Models.effect_update (models : db.Models rows) {hindex : Index.HashIndex}
    {row : Option Row} {cached : Option Time} {count : Int → Int}
    (index : Represents hindex (Function.update rows.content key
      (row.map fun row => (row.addr, row.expiresAt))))
    (countEq : hindex.entryCount.toInt = count db.hindex.entryCount.toInt)
    (lengthLe : hindex.f.length ≤ db.hindex.f.length + indexCost key)
    (holds : ∀ found, row = some found → db.volumes.localVM.Holds found.addr found.value)
    (fits : ∀ instant, cached = some instant → ExpiryFits row instant ∧ key.length ≤ 65535) :
    Effect db { db.cacheIn (shardIndex key) key cached with hindex := hindex }
      { Change.row db rows key row cached with count := count } where
  models := models.update index holds fits
  expiry_eq := rfl
  keeps := .refl _
  factor_eq := rfl
  mode_eq := rfl
  log_eq := by simp [Change.row, log, cacheIn]
  replicas_eq := by simp [Change.row, cacheIn]
  room bytes roomy := by
    refine ⟨?_, (roomy.mono (Nat.le_add_left _ _)).2⟩
    have bound := roomy.1
    change db.hindex.f.length + (indexCost key + bytes) ≤ _ at bound
    change hindex.f.length + bytes ≤ _
    omega
  count_eq := countEq

theorem onIndex_set_returns (models : db.Models rows) (keyFits : key.length ≤ 65535)
    (addr : NeedleAddr) (expiresAt : Int64) (roomy : room → db.Room (indexCost key)) :
    (onIndex (Index.set key addr expiresAt)).Returns room db fun _ next =>
      ∃ hindex, next = { db with hindex := hindex } ∧
        Represents hindex (Function.update rows.content key (some (addr, expiresAt))) ∧
        hindex.entryCount.toInt = db.hindex.entryCount.toInt + 1 ∧
        hindex.f.length = db.hindex.f.length + indexCost key :=
  .zoom (models.index.set keyFits addr expiresAt fun enough => (roomy enough).1)

theorem onIndex_delete_returns (models : db.Models rows) (keyFits : key.length ≤ 65535)
    (roomy : room → db.Room (indexCost key)) :
    (onIndex (Index.delete key)).Returns room db fun _ next =>
      ∃ hindex, next = { db with hindex := hindex } ∧
        Represents hindex (Function.update rows.content key none) ∧
        hindex.entryCount.toInt = max 0 (db.hindex.entryCount.toInt - 1) ∧
        hindex.f.length = db.hindex.f.length + indexCost key :=
  .zoom (models.index.delete keyFits fun enough => (roomy enough).1)

/-- The locked section of `Set` and `SetEX`. -/
theorem setIndexFirst_returns (models : db.Models rows) (keyFits : key.length ≤ 65535)
    (context : String) {row : Row} {cached : Option Time}
    (holds : db.volumes.localVM.Holds row.addr row.value)
    (fits : ∀ instant, cached = some instant → ExpiryFits (some row) instant)
    (roomy : room → db.Room (indexCost key)) :
    (Session.setIndexFirst context key row.addr row.expiresAt cached).Returns room db fun _ next =>
      Effect db next (.row db rows key (some row) cached) := by
  unfold Session.setIndexFirst setExpiry
  refine .bind (.wrap (onIndex_set_returns models keyFits row.addr row.expiresAt roomy)) ?_
  rintro _ _ ⟨hindex, rfl, index, countEq, lengthEq⟩
  exact .modify (models.effect_update index countEq lengthEq.le
    (fun _ isRow => Option.some.inj isRow ▸ holds)
    fun instant isCached => ⟨fits instant isCached, keyFits⟩)

/-- The locked section of the blob calls. -/
theorem setExpiryFirst_returns (models : db.Models rows) (keyFits : key.length ≤ 65535)
    (context : String) {row : Row} {cached : Option Time}
    (holds : db.volumes.localVM.Holds row.addr row.value)
    (fits : ∀ instant, cached = some instant → ExpiryFits (some row) instant)
    (roomy : room → db.Room (indexCost key)) :
    (Session.setExpiryFirst context key row.addr row.expiresAt cached).Returns room db fun _ next =>
      Effect db next (.row db rows key (some row) cached) := by
  unfold Session.setExpiryFirst setExpiry
  refine .bind_modify (.mono (.wrap (.zoom
    (models.index.set keyFits row.addr row.expiresAt fun enough => (roomy enough).1))) ?_)
  rintro _ _ ⟨hindex, rfl, index, countEq, lengthEq⟩
  exact models.effect_update index countEq lengthEq.le
    (fun _ isRow => Option.some.inj isRow ▸ holds)
    fun instant isCached => ⟨fits instant isCached, keyFits⟩

/-- Removing a row together with its cached expiry. -/
theorem Models.effect_remove (models : db.Models rows) {hindex : Index.HashIndex}
    (index : Represents hindex (Function.update rows.content key none))
    (countEq : hindex.entryCount.toInt = max 0 (db.hindex.entryCount.toInt - 1))
    (lengthEq : hindex.f.length = db.hindex.f.length + indexCost key) :
    Effect db { db.cacheIn (shardIndex key) key none with hindex := hindex }
      (.row db rows key none none) :=
  models.effect_update index countEq lengthEq.le nofun nofun

theorem get_index_eq (models : db.Models rows) (key : Key) :
    Index.get db.hindex key = .ok ((rows key).map fun row => (row.addr, row.expiresAt)) :=
  models.index.get_eq key

theorem key_fits (models : db.Models rows) {row : Row} (isRow : rows key = some row) :
    key.length ≤ 65535 :=
  models.index.key_fits (Rows.content_eq_some.mpr ⟨row, isRow, rfl⟩)

/-- The locked section of `Delete`. -/
theorem deleteLocked_returns (models : db.Models rows)
    (roomy : room → db.Room (indexCost key)) :
    (Session.deleteLocked key).Returns room db fun existed next =>
      existed = (rows key).isSome ∧
        if (rows key).isSome then Effect db next (.row db rows key none none) else next = db := by
  unfold Session.deleteLocked
  refine .bind_ask (get_index_eq models key) ?_
  cases isRow : rows key with
  | none => exact .pure ⟨rfl, rfl⟩
  | some row =>
      refine .bind (.wrap (onIndex_delete_returns models (key_fits models isRow) roomy)) ?_
      rintro _ _ ⟨hindex, rfl, index, countEq, lengthEq⟩
      exact .bind_modify (.pure ⟨rfl, models.effect_remove index countEq lengthEq⟩)

/-- The locked section of `Persist`. -/
theorem persistLocked_returns (models : db.Models rows)
    (roomy : room → db.Room (indexCost key)) :
    (Session.persistLocked key).Returns room db fun changed next =>
      (changed = true ∧ ∃ row, rows key = some row ∧ row.expiresAt ≠ 0 ∧
        Effect db next (.row db rows key (some { row with expiresAt := 0 }) none)) ∨
      changed = false ∧ (∀ row, rows key = some row → row.expiresAt = 0) ∧ next = db := by
  unfold Session.persistLocked
  refine .bind_ask (get_index_eq models key) ?_
  cases isRow : rows key with
  | none => exact .pure (.inr ⟨rfl, nofun, rfl⟩)
  | some row =>
      dsimp only [Option.map_some]
      split
      · next noExpiry =>
        refine .pure (.inr ⟨rfl, ?_, rfl⟩)
        rintro found sameRow
        exact Option.some.inj sameRow ▸ noExpiry
      · next hasExpiry =>
        refine .bind_attempt (onIndex_set_returns models (key_fits models isRow)
          row.addr 0 roomy) ?_
        rintro _ _ ⟨hindex, rfl, index, countEq, lengthEq⟩
        refine .bind_modify (.pure (.inl ⟨rfl, row, rfl, hasExpiry, ?_⟩))
        have effect : Effect db { db.cacheIn (shardIndex key) key none with hindex := hindex }
            (.row db rows key (some { row with expiresAt := 0 }) none) :=
          models.effect_update index countEq lengthEq.le
            (fun _ sameRow => Option.some.inj sameRow ▸ models.holds key row isRow) nofun
        exact effect

/-- `Persist` of a key that has an expiry. -/
theorem persistLocked_removes {row : Row} (models : db.Models rows) (isRow : rows key = some row)
    (hasExpiry : row.expiresAt ≠ 0) (roomy : room → db.Room (indexCost key)) :
    (Session.persistLocked key).Returns room db fun _ next =>
      Effect db next (.row db rows key (some { row with expiresAt := 0 }) none) := by
  refine .mono (persistLocked_returns models roomy) ?_
  rintro _ next (⟨_, other, isOther, _, effect⟩ | ⟨_, noExpiry, _⟩)
  · rw [Option.some.inj (isRow.symm.trans isOther)]
    exact effect
  · exact absurd (noExpiry row isRow) hasExpiry

/-- One deletion of a commit. -/
theorem commitDelete_returns (models : db.Models rows)
    (roomy : room → db.Room (indexCost key)) :
    (Session.commitDelete key).Returns room db fun _ next =>
      ∃ count, Effect db next { Change.row db rows key none none with count := count } := by
  unfold Session.commitDelete
  refine .bind_ask (get_index_eq models key) ?_
  cases isRow : rows key with
  | none =>
      have index : Represents db.hindex (Function.update rows.content key none) := by
        rw [Function.update_eq_self_iff.mpr (Rows.content_eq_none.mpr isRow).symm]
        exact models.index
      have effect : Effect db { db.cacheIn (shardIndex key) key none with hindex := db.hindex }
          { Change.row db rows key none none with count := id } :=
        models.effect_update index rfl (Nat.le_add_right _ _) nofun nofun
      exact .modify ⟨id, effect⟩
  | some row =>
      refine .bind (.wrap (onIndex_delete_returns models (key_fits models isRow) roomy)) ?_
      rintro _ _ ⟨hindex, rfl, index, countEq, lengthEq⟩
      exact .modify ⟨_, models.effect_remove index countEq lengthEq⟩

end

end DB

end BriseDB
