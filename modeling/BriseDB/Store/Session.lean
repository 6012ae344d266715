import BriseDB.Store.DB

/-!
# Sessions

A session is a stack of open transactions in front of the shared database.
Writes inside a transaction stay on the stack until the outermost commit; the
blob calls go around the stack.

Every writing call stores the blob first, then updates index and expiry cache
while the lock of the key's shard is held, and then writes the log and sends the
record to the replicas.
-/

namespace BriseDB

/-- `Transaction`.  The keys of `deleted` are those mapped to true; in `expiry`
the zero time means that the expiry is cleared on commit. -/
structure Transaction where
  store : Table Key Bytes
  deleted : Table Key Unit
  expiry : Table Key Time

namespace Transaction

/-- A new transaction. -/
def empty : Transaction :=
  ⟨∅, ∅, ∅⟩

/-- `Set` and `SetEX` inside a transaction. -/
def put (key : Key) (value : Bytes) (expiry : Time) (tx : Transaction) : Transaction :=
  { store := tx.store.insert key value
    deleted := tx.deleted.erase key
    expiry := tx.expiry.insert key expiry }

/-- `Delete` inside a transaction. -/
def remove (key : Key) (tx : Transaction) : Transaction :=
  { store := tx.store.erase key
    deleted := tx.deleted.insert key ()
    expiry := tx.expiry.erase key }

/-- The expiry that the outermost commit stores for a key. -/
def expiresAt (tx : Transaction) (key : Key) : Int64 :=
  match tx.expiry.lookup key with
  | none => 0
  | some instant => if instant = Time.zero then 0 else Time.unixNano instant

end Transaction

/-- The orders in which a commit visits the maps of a transaction.  The deleted
keys are visited twice. -/
structure CommitOrder where
  store : RangeOrder Key
  deleted : RangeOrder Key
  logged : RangeOrder Key
  expiry : RangeOrder Key

namespace Transaction

/-- The merge of a nested transaction into its parent. -/
def mergeInto (order : CommitOrder) (active parent : Transaction) : Transaction :=
  let stored := (active.store.range order.store).foldl
    (fun (tx : Transaction) entry =>
      { tx with
        deleted := tx.deleted.erase entry.1
        store := tx.store.insert entry.1 entry.2 }) parent
  let removed := (active.deleted.range order.deleted).foldl
    (fun (tx : Transaction) entry =>
      { tx with
        store := tx.store.erase entry.1
        deleted := tx.deleted.insert entry.1 () }) stored
  (active.expiry.range order.expiry).foldl
    (fun (tx : Transaction) entry => { tx with expiry := tx.expiry.insert entry.1 entry.2 }) removed

end Transaction

/-- A session together with the database it works on.  The top of the stack comes
first. -/
structure Session where
  db : DB
  transactions : List Transaction

namespace Session

open DB (cachedFor)

/-- Call the database. -/
def onDB {α : Type} (call : Exec DB α) : Exec Session α :=
  Exec.zoom db (fun db s => { s with db := db }) call

/-- Change the active transaction. -/
def onActive (change : Transaction → Transaction) : Exec Session Unit :=
  Exec.modify fun s =>
    match s.transactions with
    | [] => s
    | active :: rest => { s with transactions := change active :: rest }

/-! ## Locked sections -/

/-- The locked section of `Set` and `SetEX`: the index, then the expiry cache. -/
def setIndexFirst (context : String) (key : Key) (addr : NeedleAddr) (expiresAt : Int64)
    (cached : Option Time) : Exec DB Unit := do
  Exec.wrap context (DB.onIndex (Index.set key addr expiresAt))
  DB.setExpiry key cached

/-- The locked section of the blob calls: the expiry cache, then the index. -/
def setExpiryFirst (context : String) (key : Key) (addr : NeedleAddr) (expiresAt : Int64)
    (cached : Option Time) : Exec DB Unit := do
  DB.setExpiry key cached
  Exec.wrap context (DB.onIndex (Index.set key addr expiresAt))

/-- The locked section of `Delete`.  Returns whether the key was there. -/
def deleteLocked (key : Key) : Exec DB Bool := do
  let found ← Exec.ask fun db => Index.get db.hindex key
  match found with
  | none => pure false
  | some _ =>
      Exec.wrap "delete: update index" (DB.onIndex (Index.delete key))
      DB.setExpiry key none
      pure true

/-- The locked section of `Persist`. -/
def persistLocked (key : Key) : Exec DB Bool := do
  let found ← Exec.ask fun db => Index.get db.hindex key
  match found with
  | none => pure false
  | some (addr, expiresAt) =>
      if expiresAt = 0 then pure false
      else do
        let _ ← Exec.attempt (DB.onIndex (Index.set key addr 0))
        DB.setExpiry key none
        pure true

/-! ## Writing -/

/-- `fanoutSet`. -/
def fanoutSet (key : Key) (value : Bytes) (expiresAt : Int64) : Exec DB Unit :=
  DB.fanout (WalEntry.ofValue key value expiresAt)

/-- `fanoutDelete`. -/
def fanoutDelete (key : Key) : Exec DB Unit :=
  DB.fanout (WalEntry.ofDelete key)

/-- `Set` outside a transaction. -/
def setNow (key : Key) (value : Bytes) : Exec DB Unit := do
  let addr ← Exec.wrap "set: write volume" (DB.onVolumes (VolumePool.write value))
  setIndexFirst "set: update index" key addr 0 none
  DB.writeWAL (WalEntry.ofSet key addr 0)
  fanoutSet key value 0

/-- `Set`. -/
def set (key : Key) (value : Bytes) : Exec Session Unit := do
  let s ← Exec.state
  match s.transactions with
  | _ :: _ => onActive (Transaction.put key value Time.zero)
  | [] => onDB (setNow key value)

/-- `SetEX` outside a transaction. -/
def setEXNow (key : Key) (value : Bytes) (exp : Time) : Exec DB Unit := do
  let addr ← Exec.wrap "setex: write volume" (DB.onVolumes (VolumePool.write value))
  setIndexFirst "setex: update index" key addr (Time.unixNano exp) (some exp)
  DB.writeWAL (WalEntry.ofSet key addr (Time.unixNano exp))
  fanoutSet key value (Time.unixNano exp)

/-- `SetEX`. -/
def setEX (key : Key) (value : Bytes) (ttl : Int64) (now : Time) : Exec Session Unit := do
  if ttl ≤ 0 then Exec.throw "TTL must be positive"
  else
    let exp := now + ttl.toInt
    let s ← Exec.state
    match s.transactions with
    | _ :: _ => onActive (Transaction.put key value exp)
    | [] => onDB (setEXNow key value exp)

/-- The expiry of a blob: none unless the given lifetime is positive. -/
def blobExpiry (ttl : Int64) (now : Time) : Option Time :=
  if 0 < ttl ∧ now + ttl.toInt ≠ Time.zero then some (now + ttl.toInt) else none

/-- The stored form of a blob's expiry. -/
def blobExpiresAt (exp : Option Time) : Int64 :=
  match exp with
  | none => 0
  | some instant => Time.unixNano instant

/-- `SetBlob`. -/
def setBlobNow (key : Key) (data : Bytes) (exp : Option Time) : Exec DB Unit := do
  let addr ← Exec.wrap "setblob: write volume" (DB.onVolumes (VolumePool.write data))
  setExpiryFirst "setblob: update index" key addr (blobExpiresAt exp) exp
  DB.writeWAL (WalEntry.ofSet key addr (blobExpiresAt exp))
  fanoutSet key data (blobExpiresAt exp)

/-- `SetBlob` by a session; open transactions are ignored. -/
def setBlob (key : Key) (data : Bytes) (ttl : Int64) (now : Time) : Exec Session Unit :=
  onDB (setBlobNow key data (blobExpiry ttl now))

/-- `SetBlobStream`, which does not send its record to the replicas. -/
def setBlobStreamNow (key : Key) (r : Reader) (size : Int64) (exp : Option Time) :
    Exec DB Unit := do
  let addr ← Exec.wrap "setblobstream: write volume"
    (DB.onVolumes (VolumePool.writeStream r size))
  setExpiryFirst "setblobstream: update index" key addr (blobExpiresAt exp) exp
  DB.writeWAL (WalEntry.ofSet key addr (blobExpiresAt exp))

/-- `SetBlobStream` by a session; open transactions are ignored. -/
def setBlobStream (key : Key) (r : Reader) (size : Int64) (ttl : Int64) (now : Time) :
    Exec Session Unit :=
  onDB (setBlobStreamNow key r size (blobExpiry ttl now))

/-- `Delete` outside a transaction.  A key that is not there leaves no trace. -/
def deleteNow (key : Key) : Exec DB Unit := do
  let existed ← deleteLocked key
  if existed then
    DB.writeWAL (WalEntry.ofDelete key)
    fanoutDelete key
  else pure ()

/-- `Delete`. -/
def delete (key : Key) : Exec Session Unit := do
  let s ← Exec.state
  match s.transactions with
  | _ :: _ => onActive (Transaction.remove key)
  | [] => onDB (deleteNow key)

/-- `Persist`.  Neither the log nor the replicas hear of it. -/
def persist (key : Key) : Exec Session Bool := do
  let s ← Exec.state
  match s.transactions with
  | active :: _ =>
      if (active.store.lookup key).isSome then
        onActive fun tx => { tx with expiry := tx.expiry.insert key Time.zero }
        pure true
      else onDB (persistLocked key)
  | [] => onDB (persistLocked key)

/-! ## Transactions -/

/-- `BeginTransaction`. -/
def beginTransaction : Exec Session Unit :=
  Exec.modify fun s => { s with transactions := Transaction.empty :: s.transactions }

/-- `PopTransaction`. -/
def popTransaction : Exec Session Unit := do
  let s ← Exec.state
  match s.transactions with
  | [] => Exec.throw "ERROR: No Active Transactions"
  | _ :: rest => Exec.put { s with transactions := rest }

/-- `RollbackTransaction`. -/
def rollbackTransaction : Exec Session Unit :=
  popTransaction

/-- `pendingSet`. -/
structure PendingSet where
  key : Key
  value : Bytes
  addr : NeedleAddr
  expiresAt : Int64

/-- The first loop of an outermost commit: store the blobs. -/
def writeBlobs (tx : Transaction) : List (Key × Bytes) → Exec DB (List PendingSet)
  | [] => pure []
  | (key, value) :: rest => do
      let addr ← Exec.wrap "commit: write volume" (DB.onVolumes (VolumePool.write value))
      let others ← writeBlobs tx rest
      pure (⟨key, value, addr, tx.expiresAt key⟩ :: others)

/-- One deletion of the locked section of a commit. -/
def commitDelete (key : Key) : Exec DB Unit := do
  let found ← Exec.ask fun db => Index.get db.hindex key
  match found with
  | none => pure ()
  | some _ => Exec.wrap "commit: delete index" (DB.onIndex (Index.delete key))
  DB.setExpiry key none

/-- The locked section of an outermost commit. -/
def commitLocked (sets : List PendingSet) (deletes : List Key) : Exec DB Unit := do
  Exec.each sets fun ps =>
    setExpiryFirst "commit: update index" ps.key ps.addr ps.expiresAt (cachedFor ps.expiresAt)
  Exec.each deletes commitDelete

/-- The last part of an outermost commit: log and replicas. -/
def commitLog (sets : List PendingSet) (deletes : List Key) : Exec DB Unit := do
  Exec.each sets fun ps => do
    DB.writeWAL (WalEntry.ofSet ps.key ps.addr ps.expiresAt)
    fanoutSet ps.key ps.value ps.expiresAt
  Exec.each deletes fun key => do
    DB.writeWAL (WalEntry.ofDelete key)
    fanoutDelete key

/-- An outermost commit of a transaction. -/
def commitNow (tx : Transaction) (order : CommitOrder) : Exec DB Unit := do
  let sets ← writeBlobs tx (tx.store.range order.store)
  commitLocked sets ((tx.deleted.range order.deleted).map Prod.fst)
  commitLog sets ((tx.deleted.range order.logged).map Prod.fst)

/-- `CommitTransaction`. -/
def commitTransaction (order : CommitOrder) : Exec Session Unit := do
  let s ← Exec.state
  match s.transactions with
  | [] => Exec.throw "INFO: Nothing to commit"
  | active :: parent :: rest =>
      Exec.put { s with transactions := active :: active.mergeInto order parent :: rest }
      popTransaction
  | [active] =>
      onDB (commitNow active order)
      popTransaction

/-! ## Reading -/

/-- What the open transactions say about a key: `none` when they do not mention it,
`some none` when it is deleted. -/
def overlay : List Transaction → Key → Option (Option Bytes)
  | [], _ => none
  | tx :: rest, key =>
      if (tx.deleted.lookup key).isSome then some none
      else
        match tx.store.lookup key with
        | some value => some (some value)
        | none => overlay rest key

/-- Whether a stored expiry has passed. -/
def expiredAt (now : Time) (expiresAt : Int64) : Prop :=
  0 < expiresAt ∧ Time.ofNano expiresAt < now

instance (now : Time) (expiresAt : Int64) : Decidable (expiredAt now expiresAt) :=
  inferInstanceAs (Decidable (_ ∧ _))

/-- `Get` outside a transaction. -/
def getNow (key : Key) (now : Time) : Exec DB (Option Bytes) := do
  let found ← Exec.ask fun db => Index.get db.hindex key
  match found with
  | none => pure none
  | some (addr, expiresAt) =>
      if expiredAt now expiresAt then pure none
      else do
        let result ← Exec.attempt (DB.onVolumes (VolumePool.read addr))
        match result with
        | .ok data => pure (some data)
        | .error _ => pure none

/-- `Get`. -/
def get (key : Key) (now : Time) : Exec Session (Option Bytes) := do
  let s ← Exec.state
  match overlay s.transactions key with
  | some found => pure found
  | none => onDB (getNow key now)

/-- `GetBlobMeta`: the address and the expiry of a key.  Open transactions are ignored. -/
def getBlobMeta (key : Key) (now : Time) : Exec Session (Option (NeedleAddr × Int64)) := do
  let found ← Exec.ask fun s => Index.get s.db.hindex key
  match found with
  | none => pure none
  | some (addr, expiresAt) =>
      if expiredAt now expiresAt then pure none else pure (some (addr, expiresAt))

/-- `time.Until`, which saturates. -/
def untilInstant (instant now : Time) : Int :=
  max (-2 ^ 63) (min (2 ^ 63 - 1) (instant - now))

/-- The answer of `TTL` for a key that expires at an instant. -/
def remaining (instant now : Time) : Int :=
  if untilInstant instant now ≤ 0 then -2 else Time.wholeSeconds (untilInstant instant now)

/-- The answer of `TTL` from the open transactions. -/
def overlayTTL (now : Time) : List Transaction → Key → Option Int
  | [], _ => none
  | tx :: rest, key =>
      if (tx.deleted.lookup key).isSome then some (-2)
      else if (tx.store.lookup key).isSome then
        match tx.expiry.lookup key with
        | some instant =>
            if instant = Time.zero then some (-1) else some (remaining instant now)
        | none => some (-1)
      else overlayTTL now rest key

/-- The answer of `TTL` for an index entry. -/
def entryTTL (now : Time) : Option (NeedleAddr × Int64) → Int
  | none => -2
  | some (_, expiresAt) =>
      if 0 < expiresAt then remaining (Time.ofNano expiresAt) now else -1

/-- `TTL` outside a transaction. -/
def ttlNow (key : Key) (now : Time) : Exec DB Int := do
  let found ← Exec.ask fun db => Index.get db.hindex key
  pure (entryTTL now found)

/-- `TTL`. -/
def ttl (key : Key) (now : Time) : Exec Session Int := do
  let s ← Exec.state
  match overlayTTL now s.transactions key with
  | some answer => pure answer
  | none => onDB (ttlNow key now)

/-! ## Counting -/

/-- The orders of the loops of `Count`. -/
structure CountOrder where
  store : RangeOrder Key
  deleted : RangeOrder Key
  index : RangeOrder Key
  override : RangeOrder Key

/-- What `Count` collects from one transaction: the values that hide the index, and the
deleted keys. -/
def collect (order : CountOrder) (seen : Table Key Bytes × Table Key Unit) (tx : Transaction) :
    Table Key Bytes × Table Key Unit :=
  ((tx.store.range order.store).foldl
    (fun (txOverride : Table Key Bytes) entry =>
      if (txOverride.lookup entry.1).isNone ∧ (seen.2.lookup entry.1).isNone then
        txOverride.insert entry.1 entry.2
      else txOverride) seen.1,
  (tx.deleted.range order.deleted).foldl
    (fun (txDeleted : Table Key Unit) entry =>
      if (txDeleted.lookup entry.1).isNone then txDeleted.insert entry.1 () else txDeleted) seen.2)

/-- What `Count` collects from the open transactions, from the top of the stack down. -/
def overrides (order : CountOrder) (stack : List Transaction) : Table Key Bytes × Table Key Unit :=
  stack.foldl (collect order) (∅, ∅)

/-- The loop of `Count` over the index: one read for each key. -/
def countStored (value : Bytes) : List Index.Visit → Exec DB Nat
  | [] => pure 0
  | visit :: rest => do
      let result ← Exec.attempt (DB.onVolumes (VolumePool.read visit.addr))
      let others ← countStored value rest
      match result with
      | .ok data => pure (if data = value then others + 1 else others)
      | .error _ => pure others

/-- `Count`. -/
def count (value : Bytes) (now : Time) (order : CountOrder) : Exec Session Nat := do
  let s ← Exec.state
  let seen := overrides order s.transactions
  let visits ← Exec.ask fun s => Index.forEach s.db.hindex now order.index
  let committed := visits.calls.filter fun visit =>
    (seen.2.lookup visit.key).isNone ∧ (seen.1.lookup visit.key).isNone
  let stored ← onDB (countStored value committed)
  pure (stored + (seen.1.range order.override).countP fun entry => entry.2 = value)

/-! ## Listing -/

/-- `matchGlob`: `*` stands for any sequence of bytes and `?` for any one byte. -/
def matchGlob : Bytes → Bytes → Bool
  | [], s => s.isEmpty
  | c :: p, s =>
      if c = 42 then
        -- a run of stars is one star
        if p = [] then true
        else if p.head? = some 42 then matchGlob p s
        else s.tails.any fun rest => matchGlob p rest
      else
        match s with
        | [] => false
        | byte :: rest => if c = 63 ∨ c = byte then matchGlob p rest else false

/-- `sort.Strings`. -/
def sortStrings (keys : List Key) : List Key :=
  keys.mergeSort fun first second => decide (first ≤ second)

/-- `Keys`.  Every pattern is valid, and the error of the iteration is discarded. -/
def keys (pattern : Bytes) (now : Time) (order : RangeOrder Key) : Exec Session (List Key) := do
  let visits ← Exec.ask fun s => Index.forEach s.db.hindex now order
  pure (sortStrings ((visits.calls.map Index.Visit.key).filter (matchGlob pattern)))

/-- The part of a slice between two bounds, which must be in order and in range. -/
def slice (keys : List Key) (low high : Int) : Exec Session (List Key) :=
  if 0 ≤ low ∧ low ≤ high ∧ high ≤ keys.length then
    pure ((keys.take high.toNat).drop low.toNat)
  else Exec.panic "slice bounds out of range"

/-- `Scan`: a page of the keys from a cursor on, and the cursor of the next page.  The
bounds are 64-bit integers, and their sum wraps around. -/
def scan (cursor count : Int64) (now : Time) (order : RangeOrder Key) :
    Exec Session (Int64 × List Key) := do
  let count := if count ≤ 0 then 10 else count
  let visits ← Exec.ask fun s => Index.forEach s.db.hindex now order
  let all := sortStrings (visits.calls.map Index.Visit.key)
  let last := cursor + count
  if (all.length : Int) ≤ cursor.toInt then pure (0, [])
  else if (all.length : Int) ≤ last.toInt then do
    let page ← slice all cursor.toInt all.length
    pure (0, page)
  else do
    let page ← slice all cursor.toInt last.toInt
    pure (last, page)

end Session

end BriseDB
