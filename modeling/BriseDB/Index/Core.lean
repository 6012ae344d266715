import BriseDB.Index.Entry

/-!
# The on-disk hash index

The index is one file: a header, a table of bucket pointers, and an append-only
region of entries.  The table is also kept in memory and is what `Get` starts
from.  `Set` and `Delete` append an entry that links to the old head of its
bucket, publish the new head in memory, and then write it to the table in the
file.

The record `HashIndex` holds the in-memory fields of the source together with
the contents of the file and of the temporary file next to it.
-/

namespace BriseDB.Index

open Bytes (putLE getLE)
open File (readAt)

/-- `DefaultBucketCount`. -/
def defaultBucketCount : UInt64 :=
  1048576

/-- The bytes of `"BRISEHDX"`. -/
def hiMagic : Bytes :=
  [66, 82, 73, 83, 69, 72, 68, 88]

/-- `hiVersion`. -/
def hiVersion : Nat :=
  1

/-- `hiHeaderSize`. -/
def hiHeaderSize : Nat :=
  64

/-- The index with its file.  `tmp` is the contents of the file at
`path + ".tmp"`, empty when there is none. -/
structure HashIndex where
  f : Bytes
  tmp : Bytes
  bucketCount : Nat
  bucketBase : Nat
  dataBase : Nat
  writePos : Nat
  entryCount : Int64
  buckets : List Nat
  deriving DecidableEq, Repr

/-- The record before `openHashIndex` has filled it in. -/
def HashIndex.ofFiles (contents tmp : Bytes) : HashIndex where
  f := contents
  tmp := tmp
  bucketCount := 0
  bucketBase := 0
  dataBase := 0
  writePos := 0
  entryCount := 0
  buckets := []

/-! ## Header and bucket table -/

/-- `encodeHeader`. -/
def encodeHeader (bucketCount dataBase : Nat) (entryCount : Int64) : Bytes :=
  hiMagic ++ (putLE 4 hiVersion ++ (putLE 4 0 ++ (putLE 8 bucketCount ++ (putLE 8 dataBase ++
    (putLE 8 entryCount.toUInt64.toNat ++ List.replicate 24 0)))))

/-- The bucket table as it is laid out in the file. -/
def tableBytes (buckets : List Nat) : Bytes :=
  buckets.flatMap (putLE 8)

/-- Decode a bucket table of `count` slots. -/
def parseTable : Nat → Bytes → List Nat
  | 0, _ => []
  | count + 1, bytes => getLE (bytes.take 8) :: parseTable count (bytes.drop 8)

/-- `hi.f.WriteAt`. -/
def writeFile (offset : Nat) (data : Bytes) : Exec HashIndex Unit := do
  let hi ← Exec.state
  let (contents, error) ← File.write hi.f offset data
  Exec.put { hi with f := contents }
  match error with
  | some cause => Exec.throw cause
  | none => pure ()

/-- `initFile`: write the header and an empty bucket table. -/
def initFile : Exec HashIndex Unit := do
  let hi ← Exec.state
  writeFile 0 (encodeHeader hi.bucketCount hi.dataBase hi.entryCount)
  if File.maxSize < hiHeaderSize + hi.bucketCount * 8 then
    Exec.exhausted "makeslice: len out of range"
  else
    writeFile hiHeaderSize (List.replicate (hi.bucketCount * 8) 0)

/-- `readHeader`: take the table size, the data offset and the entry count from
the file. -/
def readHeader : Exec HashIndex Unit := do
  let hi ← Exec.state
  let hdr := readAt hi.f 0 hiHeaderSize
  if hdr.length < hiHeaderSize then
    Exec.throw "EOF"
  else if readAt hdr 0 8 ≠ hiMagic then
    Exec.throw "bad magic"
  else
    Exec.put
      { hi with
        bucketCount := getLE (readAt hdr 16 8)
        dataBase := getLE (readAt hdr 24 8)
        bucketBase := hiHeaderSize
        entryCount := (UInt64.ofNat (getLE (readAt hdr 32 8))).toInt64 }

/-- `loadBuckets`: read the bucket table of the file into memory. -/
def loadBuckets : Exec HashIndex Unit := do
  let hi ← Exec.state
  if File.maxSize < hi.bucketCount * 8 then
    Exec.exhausted "makeslice: len out of range"
  else
    let table := readAt hi.f hi.bucketBase (hi.bucketCount * 8)
    if table.length < hi.bucketCount * 8 then
      Exec.throw "EOF"
    else
      Exec.put { hi with buckets := parseTable hi.bucketCount table }

/-- `openHashIndex` on the file held by the record: create it when it is empty,
otherwise take its layout from the header, and load the bucket table. -/
def openHashIndex (bucketCount : UInt64) : Exec HashIndex Unit := do
  let count := if bucketCount = 0 then defaultBucketCount else bucketCount
  let dataBase := hiHeaderSize + count.toNat * 8
  Exec.modify fun hi =>
    { hi with
      bucketCount := count.toNat
      bucketBase := hiHeaderSize
      dataBase := dataBase
      writePos := dataBase
      entryCount := 0
      buckets := [] }
  let hi ← Exec.state
  if hi.f = [] then
    Exec.wrap "init hash index" initFile
  else
    Exec.wrap "read hash index header" readHeader
    Exec.modify fun current => { current with writePos := hi.f.length }
  Exec.wrap "load hash index buckets" loadBuckets

/-! ## Lookup -/

/-- `hashSlot`: the bucket of a key.  A table without buckets makes the division
panic. -/
def hashSlot (hi : HashIndex) (key : Key) : Res Nat :=
  if hi.bucketCount = 0 then .panic "integer divide by zero"
  else .ok ((fnv64a key).toNat % hi.bucketCount)

/-- One round of the chain walk of `Get`, at offset `off`. -/
def getStep (hi : HashIndex) (key : Key) (off : Nat) :
    Res (Nat ⊕ Option (NeedleAddr × Int64)) :=
  if off = 0 then .ok (.inr none)
  else
    match readEntryAt hi.f off with
    | .error _ => .ok (.inr none)
    | .ok e =>
        if e.key = key then
          .ok (.inr (if e.deleted then none else some (e.addr, e.expiresAt)))
        else .ok (.inl e.next)

/-- `Get`: walk the chain of the key's bucket, newest entry first.  The walk is
determined by the offset and only offsets inside the file can be read, so a
walk longer than the file has come back to an offset and never ends. -/
def get (hi : HashIndex) (key : Key) : Res (Option (NeedleAddr × Int64)) := do
  let slot ← hashSlot hi key
  Res.loop (getStep hi key) (hi.f.length + 1) (hi.buckets.getD slot 0)

/-! ## Updates -/

/-- `writeBucketFile`: store a bucket pointer in the file. -/
def writeBucketFile (slot entryOff : Nat) : Exec HashIndex Unit := do
  let hi ← Exec.state
  writeFile (hi.bucketBase + slot * 8) (putLE 8 entryOff)

/-- The common body of `Set` and `Delete`: append an entry in front of its
chain, publish it in memory, then in the file. -/
def appendEntry (context : String) (key : Key) (addr : NeedleAddr) (expiresAt : Int64)
    (deleted : Bool) (count : Int64 → Int64) : Exec HashIndex Unit := do
  let slot ← Exec.ask fun hi => hashSlot hi key
  let hi ← Exec.state
  let entry := encodeIndexEntry (hi.buckets.getD slot 0) key addr expiresAt deleted
  Exec.wrap context (writeFile hi.writePos entry)
  Exec.modify fun current =>
    { current with
      writePos := hi.writePos + entry.length
      entryCount := count hi.entryCount
      buckets := hi.buckets.set slot hi.writePos }
  writeBucketFile slot hi.writePos

/-- `Set`. -/
def set (key : Key) (addr : NeedleAddr) (expiresAt : Int64) : Exec HashIndex Unit :=
  appendEntry "hash index set" key addr expiresAt false (· + 1)

/-- `Delete`: append a tombstone.  The counter never drops below zero. -/
def delete (key : Key) : Exec HashIndex Unit :=
  appendEntry "hash index delete" key default 0 true fun count =>
    if 0 < count then count - 1 else count

/-- `Close`: store the entry count in the header; a failure to do so is
ignored. -/
def close : Exec HashIndex Unit := do
  let hi ← Exec.state
  let _ ← Exec.attempt (writeFile 0 (encodeHeader hi.bucketCount hi.dataBase hi.entryCount))

end BriseDB.Index
