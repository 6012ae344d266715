import BriseDB.Index.Iterate
import BriseDB.Store.Wal
import BriseDB.Volume.Pool

/-!
# The shared database

`DB` is the state shared by all sessions: the hash index, the expiry cache, the
volume pool, the log with the queue of its flusher, and the channels of the
replicas.  Functions that run with all or one of the key locks held are single
calls here; the steps of concurrent sessions are taken apart elsewhere.

The log flusher runs in the background.  `drain` is one round of it.  Every
function that reads the clock takes the reading, and every loop over a map the
order of the loop.
-/

namespace BriseDB

open Index (HashIndex)

/-- `FsyncMode`. -/
inductive FsyncMode where
  | everySec
  | always
  | no
  deriving DecidableEq, Repr

/-- `DBOptions`, with the number of directories in place of their names. -/
structure DBOptions where
  extraDrives : Nat
  maxVolumeSize : UInt64
  replicationFactor : Int
  cacheSize : UInt64
  fsync : FsyncMode
  deriving DecidableEq, Repr

/-- The buffered channel of a connected replica. -/
structure ReplicaChannel where
  capacity : Nat
  queue : List WalEntry
  deriving DecidableEq, Repr

namespace ReplicaChannel

/-- Send without waiting: a full channel drops the entry. -/
def push (e : WalEntry) (ch : ReplicaChannel) : ReplicaChannel :=
  if ch.queue.length < ch.capacity then { ch with queue := ch.queue ++ [e] } else ch

end ReplicaChannel

/-- `BriseDB` with its files.  `walSynced` is the number of lines of the log file
that are on disk for certain; what a directory holds when it is opened counts as
such.  `walWriterErr` is the error the flusher's buffered
writer keeps returning after a failed write.  In `walErr`, `none` is a value that was
never stored and `some none` a stored nil pointer. -/
structure DB where
  hindex : HashIndex
  expiry : Fin numShards → Table Key Time
  volumes : VolumePool
  walFile : List WalLine
  walSynced : Nat
  walCh : List WalEntry
  walWriterErr : Option String
  walErr : Option (Option String)
  fsyncMode : FsyncMode
  replicas : List ReplicaChannel

namespace DB

/-- Call the hash index. -/
def onIndex {α : Type} (call : Exec HashIndex α) : Exec DB α :=
  Exec.zoom hindex (fun hindex db => { db with hindex := hindex }) call

/-- Call the volume pool. -/
def onVolumes {α : Type} (call : Exec VolumePool α) : Exec DB α :=
  Exec.zoom volumes (fun volumes db => { db with volumes := volumes }) call

/-- The expiry cached for a key. -/
def expiring (db : DB) (key : Key) : Option Time :=
  (db.expiry (shardIndex key)).lookup key

/-- Cache an expiry in a shard, or remove the one that is cached. -/
def cacheIn (shard : Fin numShards) (key : Key) (expiry : Option Time) (db : DB) : DB :=
  { db with
    expiry := Function.update db.expiry shard
      (match expiry with
      | some instant => (db.expiry shard).insert key instant
      | none => (db.expiry shard).erase key) }

/-- Update the expiry cache for a key. -/
def setExpiry (key : Key) (expiry : Option Time) : Exec DB Unit :=
  Exec.modify (cacheIn (shardIndex key) key expiry)

/-- What the expiry cache holds for a stored expiry. -/
def cachedFor (expiresAt : Int64) : Option Time :=
  if 0 < expiresAt then some (Time.ofNano expiresAt) else none

/-! ## The log -/

/-- `flushBatch`. -/
def flushBatch (batch : List WalEntry) : Exec DB Unit := do
  let db ← Exec.state
  match db.walWriterErr with
  | some cause => Exec.throw cause
  | none =>
      let written ← Exec.outcome
      match written with
      | .cut count =>
          Exec.put
            { db with
              walFile := db.walFile ++ cutLines count batch
              walWriterErr := some "write wal.log" }
          Exec.throw "write wal.log"
      | .complete =>
          Exec.put { db with walFile := db.walFile ++ batch.map .entry }
          if db.fsyncMode = .always then
            let synced ← Exec.outcome
            match synced with
            | .cut _ => Exec.throw "sync wal.log"
            | .complete => Exec.modify fun db => { db with walSynced := db.walFile.length }
          else pure ()

/-- One round of `walFlusher`: write what is queued and report the outcome. -/
def drain : Exec DB (Except String Unit) := do
  let db ← Exec.state
  match db.walCh with
  | [] => pure (.ok ())
  | batch =>
      Exec.put { db with walCh := [] }
      let result ← Exec.attempt (flushBatch batch)
      match result with
      | .ok _ => pure (.ok ())
      | .error cause =>
          Exec.modify fun db => { db with walErr := some (some cause) }
          pure (.error cause)

/-- `writeWAL`. -/
def writeWAL (op : WalEntry) : Exec DB Unit := do
  let op := { op with value := [] }
  let db ← Exec.state
  if db.fsyncMode = .always then
    Exec.put { db with walCh := db.walCh ++ [op] }
    let result ← drain
    match result with
    | .ok _ => pure ()
    | .error cause => Exec.throw s!"write WAL: {cause}"
  else
    match db.walErr with
    | none => Exec.put { db with walCh := db.walCh ++ [op] }
    | some stored =>
        Exec.put { db with walErr := some none }
        match stored with
        | some cause => Exec.throw s!"write WAL: {cause}"
        | none => Exec.panic "nil pointer dereference"

/-- `fanout`. -/
def fanout (e : WalEntry) : Exec DB Unit :=
  Exec.modify fun db => { db with replicas := db.replicas.map (ReplicaChannel.push e) }

/-! ## Replaying records -/

/-- `applyEntry`. -/
def applyEntry (op : WalEntry) : Exec DB Unit :=
  match op.type with
  | .set => do
      let _ ← Exec.attempt (onIndex (Index.set op.key op.addr op.expiresAt))
      setExpiry op.key (cachedFor op.expiresAt)
      let _ ← Exec.attempt (onVolumes (VolumePool.ensureVolume op.volumeID))
  | .delete => do
      let _ ← Exec.attempt (onIndex (Index.delete op.key))
      setExpiry op.key none

/-- The test with which `replayWAL` passes over a record. -/
def replaySkips (now : Time) (op : WalEntry) : Prop :=
  op.type = .set ∧ 0 < op.expiresAt ∧ Time.ofSeconds op.expiresAt < now

instance (now : Time) (op : WalEntry) : Decidable (replaySkips now op) :=
  inferInstanceAs (Decidable (_ ∧ _ ∧ _))

/-- `replayWAL` on one record that has been read. -/
def replayEntry (now : Time) (op : WalEntry) : Exec DB Unit :=
  if replaySkips now op then pure () else applyEntry op

/-- The loop of `replayWAL`.  A torn line runs into the line that follows it, and
is a record only if it is the last one and misses nothing but its newline. -/
def replayLines (now : Time) : List WalLine → Exec DB Unit
  | [] => pure ()
  | .entry e :: rest =>
      if WalEntry.maxLine < e.marshal.length then Exec.throw "bufio.Scanner: token too long"
      else do
        replayEntry now e.wire
        replayLines now rest
  | .torn e kept :: rest =>
      if kept = 0 then replayLines now rest
      else if WalEntry.maxLine < kept then Exec.throw "bufio.Scanner: token too long"
      else if rest = [] ∧ e.marshal.length ≤ kept then replayEntry now e.wire
      else Exec.throw "unmarshal WAL entry"

/-- `replayWAL`. -/
def replayWAL (now : Time) : Exec DB Unit := do
  let db ← Exec.state
  replayLines now db.walFile

/-- `rebuildExpiry`. -/
def rebuildExpiry (now : Time) (order : RangeOrder Key) : Exec DB Unit := do
  let visits ← Exec.ask fun db => Index.forEach db.hindex now order
  Exec.each visits.calls fun visit =>
    if 0 < visit.expiresAt then setExpiry visit.key (some (Time.ofNano visit.expiresAt))
    else pure ()
  match visits.error with
  | some cause => Exec.throw cause
  | none => pure ()

/-! ## Opening and closing -/

/-- The files of a database directory, and the volume servers it uses. -/
structure Directory where
  walLog : List WalLine
  index : Bytes
  indexTmp : Bytes
  volumes : Table VolumePath Bytes
  registry : Table UInt32 VolumeGroup
  remotes : List Remote

/-- `NewBriseDB` up to the choice of the recovery path. -/
def start (dir : Directory) (opt : DBOptions) (order : RangeOrder UInt32) : DB :=
  { hindex := HashIndex.ofFiles dir.index dir.indexTmp
    expiry := fun _ => ∅
    volumes := VolumePool.newVolumePool
      (VolumeManager.newVolumeManager (opt.extraDrives + 1) opt.maxVolumeSize dir.volumes)
      dir.remotes dir.registry opt.replicationFactor opt.cacheSize order
    walFile := dir.walLog
    walSynced := dir.walLog.length
    walCh := []
    walWriterErr := none
    walErr := none
    fsyncMode := opt.fsync
    replicas := [] }

/-- The recovery path of `NewBriseDB`. -/
def recover (now : Time) (order : RangeOrder Key) : Exec DB Unit := do
  let db ← Exec.state
  if db.hindex.entryCount = 0 then Exec.wrap "replay WAL" (replayWAL now)
  else Exec.wrap "rebuild expiry cache" (rebuildExpiry now order)

/-- `NewBriseDB`, as a call on the state `start` has put together. -/
def newBriseDB (now : Time) (order : RangeOrder Key) : Exec DB Unit := do
  Exec.wrap "open hash index" (onIndex (Index.openHashIndex 0))
  recover now order

/-- `Close`. -/
def close : Exec DB Unit := do
  let _ ← drain
  let _ ← Exec.attempt (onVolumes VolumePool.writeRegistrySnap)
  onIndex Index.close

/-- The files a closed database leaves. -/
def directory (db : DB) : Directory where
  walLog := db.walFile
  index := db.hindex.f
  indexTmp := db.hindex.tmp
  volumes := db.volumes.localVM.files
  registry := db.volumes.registryFile
  remotes := db.volumes.remotes

/-! ## Background work -/

/-- `evictExpired` on one shard. -/
def evictShard (now : Time) (order : RangeOrder Key) (shard : Fin numShards) : Exec DB Unit := do
  let db ← Exec.state
  Exec.each ((db.expiry shard).range order) fun entry =>
    if entry.2 < now then do
      let _ ← Exec.attempt (onIndex (Index.delete entry.1))
      Exec.modify (cacheIn shard entry.1 none)
    else pure ()

/-- `evictExpired`. -/
def evictExpired (now : Time) (order : Fin numShards → RangeOrder Key) : Exec DB Unit :=
  Exec.each (List.finRange numShards) fun shard => evictShard now (order shard) shard

/-- What a `bufio.Writer` has passed on and what it still buffers after a write of
`length` bytes. -/
def bufioWrite (written : Nat × Nat) (length : Nat) : Nat × Nat :=
  if length ≤ 4096 - written.2 then (written.1, written.2 + length)
  else if written.2 = 0 then (written.1 + length, 0)
  else
    let rest := length - (4096 - written.2)
    if rest ≤ 4096 then (written.1 + 4096, rest) else (written.1 + 4096 + rest, 0)

/-- The part of `Compact` that rewrites the log from the compacted index. -/
def rewriteWAL (now : Time) (order : RangeOrder Key) : Exec DB Unit := do
  Exec.modify fun db => { db with walFile := [], walSynced := 0 }
  let visits ← Exec.ask fun db => Index.forEach db.hindex now order
  let entries := visits.calls.map fun visit =>
    WalEntry.ofSet visit.key visit.addr visit.expiresAt
  match visits.error with
  | some cause =>
      let lengths := entries.flatMap fun e => [e.marshal.length, 1]
      Exec.modify fun db =>
        { db with walFile := cutLines (lengths.foldl bufioWrite (0, 0)).1 entries }
      Exec.throw s!"compact WAL write: {cause}"
  | none =>
      let flushed ← Exec.outcome
      match flushed with
      | .cut count =>
          Exec.modify fun db => { db with walFile := cutLines count entries }
          Exec.throw "flush WAL"
      | .complete => Exec.modify fun db => { db with walFile := entries.map .entry }

/-- The flusher's part of the hand-over of the rewritten log: what is queued goes
behind the rewritten lines, and the buffered writer is replaced. -/
def swapWAL : Exec DB Unit := do
  let _ ← drain
  let db ← Exec.state
  Exec.put { db with walWriterErr := none }
  match db.walWriterErr with
  | some cause => Exec.throw s!"swap WAL file: {cause}"
  | none =>
      if db.fsyncMode = .no then pure ()
      else
        let synced ← Exec.outcome
        match synced with
        | .cut _ => Exec.throw "swap WAL file: sync wal.log"
        | .complete => Exec.modify fun db => { db with walSynced := db.walFile.length }

/-- `Compact`.  The flusher is idle from the truncation of the log to the swap, and what
is queued is appended to the rewritten log.  So it is in the source if nothing is queued
when `Compact` begins; otherwise the flusher may also append while the log is rewritten
from its start, and the bytes of both mix. -/
def compact (now : Time) (indexOrder logOrder : RangeOrder Key) : Exec DB Unit := do
  Exec.wrap "compact hash index" (onIndex (Index.compact now indexOrder))
  rewriteWAL now logOrder
  swapWAL

/-! ## Replication -/

/-- `Register` a replica's channel. -/
def register (capacity : Nat) : Exec DB Unit :=
  Exec.modify fun db => { db with replicas := db.replicas ++ [⟨capacity, []⟩] }

/-- The second loop of `Snapshot`: read the values, leaving out what cannot be
read. -/
def snapshotEntries : List Index.Visit → Exec DB (List WalEntry)
  | [] => pure []
  | visit :: rest => do
      let value ← Exec.attempt (onVolumes (VolumePool.read visit.addr))
      let others ← snapshotEntries rest
      match value with
      | .ok data => pure (WalEntry.ofValue visit.key data visit.expiresAt :: others)
      | .error _ => pure others

/-- `Snapshot`. -/
def snapshot (now : Time) (order : RangeOrder Key) : Exec DB (List WalEntry) := do
  let visits ← Exec.ask fun db => Index.forEach db.hindex now order
  snapshotEntries visits.calls

/-- `ApplyReplicationEntry` on the line of a record. -/
def applyReplicationEntry (sent : WalEntry) : Exec DB Unit := do
  let op := sent.wire
  match op.type with
  | .delete =>
      applyEntry op
      writeWAL op
  | .set =>
      let addr ← Exec.wrap "replication: write volume" (onVolumes (VolumePool.write op.value))
      let stored :=
        { op with volumeID := addr.volumeID, offset := addr.offset, size := addr.size }
      applyEntry stored
      writeWAL stored

end DB

end BriseDB
