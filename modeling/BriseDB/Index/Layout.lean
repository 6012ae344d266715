import BriseDB.Base.Chain
import BriseDB.Index.Core

/-!
# The layout invariant of the index file

`Layout hi stored log` says that the file of `hi` consists of a header holding
the entry count `stored`, the bucket table and the records of `log`, that the
table in memory agrees with the one in the file, and that every bucket points
to the newest record of its chain.  The log is kept newest record first.

`newest log key` is what the log says about a key, and `get` returns exactly
that.
-/

namespace BriseDB.Index

open Bytes (putLE getLE)
open File (readAt)

/-- An entry of the log, without its derived size. -/
structure Record where
  next : Nat
  key : Key
  addr : NeedleAddr
  expiresAt : Int64
  deleted : Bool
  deriving DecidableEq, Repr

namespace Record

/-- The bytes of a record. -/
def encode (record : Record) : Bytes :=
  encodeIndexEntry record.next record.key record.addr record.expiresAt record.deleted

/-- The number of bytes of a record. -/
def size (record : Record) : Nat :=
  entryOverhead + record.key.length

/-- The bucket of a record in a table of `count` buckets. -/
def bucket (count : Nat) (record : Record) : Nat :=
  (fnv64a record.key).toNat % count

/-- What the record stores for its key. -/
def content (record : Record) : Option (NeedleAddr × Int64) :=
  if record.deleted then none else some (record.addr, record.expiresAt)

@[simp]
theorem length_encode (record : Record) : record.encode.length = record.size :=
  length_encodeIndexEntry ..

theorem size_pos (record : Record) : 39 ≤ record.size := by
  have overhead : entryOverhead = 39 := rfl
  unfold size
  omega

end Record

/-- The data region holding a log. -/
def dataBytes : List Record → Bytes
  | [] => []
  | record :: older => dataBytes older ++ record.encode

/-- What a log says about a key: the content of its newest record. -/
def newest (log : List Record) (key : Key) : Option (NeedleAddr × Int64) :=
  (log.find? fun record => record.key = key).bind Record.content

/-- Offset of the data region behind a table of `count` buckets. -/
def dataStart (count : Nat) : Nat :=
  hiHeaderSize + count * 8

/-- Position of the newest record of a bucket. -/
def headOf (count slot : Nat) (log : List Record) : Nat :=
  Chain.head (dataStart count) Record.size (Record.bucket count) slot log

/-- Every record links to its predecessor in the same bucket. -/
def Linked (count : Nat) (log : List Record) : Prop :=
  Chain.Linked (dataStart count) Record.size (Record.bucket count) Record.next log

/-- The file and the in-memory fields of `hi` hold `log`. -/
structure Layout (hi : HashIndex) (stored : Int64) (log : List Record) : Prop where
  bucketCount_pos : 0 < hi.bucketCount
  bucketBase_eq : hi.bucketBase = hiHeaderSize
  dataBase_eq : hi.dataBase = dataStart hi.bucketCount
  buckets_length : hi.buckets.length = hi.bucketCount
  contents_eq : hi.f = encodeHeader hi.bucketCount hi.dataBase stored ++
    (tableBytes hi.buckets ++ dataBytes log)
  writePos_eq : hi.writePos = hi.f.length
  within : hi.f.length ≤ File.maxSize
  heads : ∀ slot < hi.bucketCount, hi.buckets.getD slot 0 = headOf hi.bucketCount slot log
  linked : Linked hi.bucketCount log
  keys_fit : ∀ record ∈ log, record.key.length ≤ 65535
  count_nonneg : 0 ≤ hi.entryCount.toInt
  count_le : hi.entryCount.toInt ≤ log.length

/-! ## Sizes -/

@[simp]
theorem length_encodeHeader (count dataBase : Nat) (stored : Int64) :
    (encodeHeader count dataBase stored).length = hiHeaderSize := by
  simp [encodeHeader, hiMagic, hiHeaderSize]

@[simp]
theorem length_tableBytes (buckets : List Nat) :
    (tableBytes buckets).length = buckets.length * 8 := by
  induction buckets with
  | nil => rfl
  | cons head rest ih =>
      rw [tableBytes, List.flatMap_cons, List.length_append, Bytes.length_putLE]
      change 8 + (tableBytes rest).length = _
      rw [ih, List.length_cons]
      omega

@[simp]
theorem length_dataBytes (log : List Record) :
    (dataBytes log).length = Chain.span Record.size log := by
  induction log with
  | nil => rfl
  | cons record older ih => simp [dataBytes, Chain.span, ih, Nat.add_comm]

theorem dataBytes_append (newer older : List Record) :
    dataBytes (newer ++ older) = dataBytes older ++ dataBytes newer := by
  induction newer with
  | nil => simp [dataBytes]
  | cons record newer ih => simp [dataBytes, ih]

/-- A log takes at least 39 bytes for every record. -/
theorem length_le_span (log : List Record) : 39 * log.length ≤ Chain.span Record.size log := by
  induction log with
  | nil => simp
  | cons record older ih =>
      have positive := record.size_pos
      rw [Chain.span, List.length_cons]
      omega

namespace Layout

variable {hi : HashIndex} {stored : Int64} {log : List Record}

theorem length_eq (layout : Layout hi stored log) :
    hi.f.length = dataStart hi.bucketCount + Chain.span Record.size log := by
  rw [layout.contents_eq]
  simp [layout.buckets_length, dataStart, Nat.add_assoc]

/-- Links and bucket heads are offsets inside the file. -/
theorem headOf_lt (layout : Layout hi stored log) {newer older : List Record} (slot : Nat)
    (split : log = newer ++ older) : headOf hi.bucketCount slot older < 2 ^ 63 := by
  have bound : headOf hi.bucketCount slot older ≤
      dataStart hi.bucketCount + Chain.span Record.size older := Chain.head_le older
  have total := layout.within
  rw [layout.length_eq, split, Chain.span_append] at total
  unfold File.maxSize at total
  omega

/-- A record of the log is read back at its position. -/
theorem readEntryAt_eq (layout : Layout hi stored log) {newer older : List Record}
    {record : Record} (split : log = newer ++ record :: older) :
    readEntryAt hi.f (dataStart hi.bucketCount + Chain.span Record.size older) =
      .ok ⟨record.next, record.key, record.addr, record.expiresAt, record.deleted,
        record.size⟩ := by
  have nextFits : record.next < 2 ^ 64 := by
    have whole := layout.linked
    rw [split] at whole
    have link : record.next = headOf hi.bucketCount (record.bucket hi.bucketCount) older :=
      (Chain.Linked.older whole).1
    have bound := layout.headOf_lt (record.bucket hi.bucketCount)
      (show log = (newer ++ [record]) ++ older by simp [split])
    omega
  have keyFits : record.key.length ≤ 65535 := layout.keys_fit record (by simp [split])
  have contents : hi.f = (encodeHeader hi.bucketCount hi.dataBase stored ++
      (tableBytes hi.buckets ++ dataBytes older)) ++ (record.encode ++ dataBytes newer) := by
    rw [layout.contents_eq, split, dataBytes_append, dataBytes]
    simp
  have position : dataStart hi.bucketCount + Chain.span Record.size older =
      (encodeHeader hi.bucketCount hi.dataBase stored ++
        (tableBytes hi.buckets ++ dataBytes older)).length := by
    simp [layout.buckets_length, dataStart, Nat.add_assoc]
  have inFile : (encodeHeader hi.bucketCount hi.dataBase stored ++
      (tableBytes hi.buckets ++ dataBytes older)).length < 2 ^ 63 := by
    have total := layout.within
    rw [contents, List.length_append] at total
    unfold File.maxSize at total
    omega
  rw [position, contents]
  exact readEntryAt_encodeIndexEntry inFile nextFits keyFits

/-- One step of a walk along a chain, from the head of a bucket in an older part
of the log: the chain has ended, or the head is the position of a record of the
bucket and its link is the head of the bucket in the log before it. -/
theorem walk_cases (layout : Layout hi stored log) {newer older : List Record} (slot : Nat)
    (split : log = newer ++ older) :
    (headOf hi.bucketCount slot older = 0 ∧
        ∀ record ∈ older, record.bucket hi.bucketCount ≠ slot) ∨
      ∃ skipped record rest, older = skipped ++ record :: rest ∧
        record.bucket hi.bucketCount = slot ∧
        (∀ other ∈ skipped, other.bucket hi.bucketCount ≠ slot) ∧
        headOf hi.bucketCount slot older ≠ 0 ∧
        readEntryAt hi.f (headOf hi.bucketCount slot older) =
          .ok ⟨record.next, record.key, record.addr, record.expiresAt, record.deleted,
            record.size⟩ ∧
        record.next = headOf hi.bucketCount slot rest := by
  have linked : Linked hi.bucketCount older := by
    have whole := layout.linked
    rw [split] at whole
    exact Chain.Linked.older whole
  rcases Chain.head_cases linked slot with ⟨headEq, others⟩ |
    ⟨skipped, record, rest, parts, recordSlot, others, headEq, link⟩
  · exact .inl ⟨headEq, others⟩
  · have here : log = (newer ++ skipped) ++ record :: rest := by
      rw [split, parts, List.append_assoc]
    refine .inr ⟨skipped, record, rest, parts, recordSlot, others, ?_, ?_, link⟩
    · rw [show headOf hi.bucketCount slot older = _ from headEq]
      simp [dataStart, hiHeaderSize]
    · rw [show headOf hi.bucketCount slot older = _ from headEq]
      exact layout.readEntryAt_eq here

end Layout

/-! ## Lookup -/

theorem newest_skip {skipped : List Record} {key : Key}
    (others : ∀ record ∈ skipped, record.key ≠ key) (rest : List Record) :
    newest (skipped ++ rest) key = newest rest key := by
  have notFound : skipped.find? (fun record => record.key = key) = none := by
    simpa using others
  simp [newest, List.find?_append, notFound]

theorem newest_cons (record : Record) (older : List Record) (key : Key) :
    newest (record :: older) key =
      if record.key = key then record.content else newest older key := by
  by_cases same : record.key = key <;> simp [newest, same]

/-- Records of another bucket belong to another key. -/
theorem key_ne_of_bucket_ne {count : Nat} {key : Key} {records : List Record}
    (others : ∀ record ∈ records, record.bucket count ≠ (fnv64a key).toNat % count) :
    ∀ record ∈ records, record.key ≠ key := by
  intro record mem same
  exact others record mem (by rw [Record.bucket, same])

namespace Layout

variable {hi : HashIndex} {stored : Int64} {log : List Record}

/-- The chain walk of `Get` from the head of the key's bucket finds the newest
record of the key. -/
theorem loop_getStep (layout : Layout hi stored log) (key : Key) (fuel : Nat)
    (newer older : List Record) (split : log = newer ++ older) (enough : older.length < fuel) :
    Res.loop (getStep hi key) fuel
        (headOf hi.bucketCount ((fnv64a key).toNat % hi.bucketCount) older) =
      .ok (newest older key) := by
  induction fuel generalizing newer older with
  | zero => omega
  | succ fuel ih =>
      rcases layout.walk_cases ((fnv64a key).toNat % hi.bucketCount) split with
        ⟨headEq, others⟩ | ⟨skipped, record, rest, parts, _, others, nonzero, entry, link⟩
      · have absent : newest older key = none := by
          simpa [newest] using newest_skip (key_ne_of_bucket_ne others) []
        rw [headEq, absent]
        exact Res.loop_stop (by simp [getStep]) fuel
      · have skip := key_ne_of_bucket_ne others
        rw [parts, newest_skip skip, newest_cons, ← parts]
        by_cases same : record.key = key
        · rw [if_pos same]
          refine Res.loop_stop ?_ fuel
          simp [getStep, nonzero, entry, same, Record.content]
        · rw [if_neg same]
          have step : getStep hi key
              (headOf hi.bucketCount ((fnv64a key).toNat % hi.bucketCount) older) =
                .ok (.inl record.next) := by
            simp [getStep, nonzero, entry, same]
          rw [Res.loop_continue step, link]
          apply ih (newer ++ skipped ++ [record]) rest
          · simp [split, parts]
          · rw [parts] at enough
            simp at enough
            omega

/-- `Get` ends and returns what the newest record of the key says. -/
theorem get_eq (layout : Layout hi stored log) (key : Key) :
    get hi key = .ok (newest log key) := by
  have slotLt : (fnv64a key).toNat % hi.bucketCount < hi.bucketCount :=
    Nat.mod_lt _ layout.bucketCount_pos
  have enough : log.length < hi.f.length + 1 := by
    have size := length_le_span log
    have total := layout.length_eq
    omega
  rw [get, hashSlot, if_neg (Nat.pos_iff_ne_zero.mp layout.bucketCount_pos), Res.ok_bind,
    layout.heads _ slotLt]
  exact layout.loop_getStep key _ [] log rfl enough

end Layout

end BriseDB.Index
