import BriseDB.Index.Compaction

/-!
# The index refines a map

`Represents hi content` connects an index with the map from keys to addresses
and expiries that it stands for.  The operations of the index change that map
as their names say, and every run of operations on a new file does.  Users of
the index rely on this interface and not on the layout of the file.
-/

namespace BriseDB.Index

/-- What an index stores for each key. -/
abbrev Content :=
  Key → Option (NeedleAddr × Int64)

variable {room : Prop}

/-- The index file holds `content`, and no temporary file is left behind. -/
def Represents (hi : HashIndex) (content : Content) : Prop :=
  ∃ stored log, Layout hi stored log ∧ newest log = content ∧ hi.tmp = []

/-- The file holds `content` and stores `count` as its number of entries, whatever
the in-memory fields are. -/
def FileHolds (file : HashIndex) (content : Content) (count : Int64) : Prop :=
  ∃ hi log, Layout hi count log ∧ newest log = content ∧ file.f = hi.f ∧ file.tmp = [] ∧
    0 ≤ count.toInt ∧ count.toInt ≤ log.length

namespace Represents

variable {hi : HashIndex} {content : Content}

theorem get_eq (represents : Represents hi content) (key : Key) :
    get hi key = .ok (content key) := by
  obtain ⟨_, _, layout, rfl, _⟩ := represents
  exact layout.get_eq key

theorem key_fits (represents : Represents hi content) {key : Key} {entry : NeedleAddr × Int64}
    (found : content key = some entry) : key.length ≤ 65535 := by
  obtain ⟨_, _, layout, rfl, _⟩ := represents
  exact key_fits_of_newest layout found

theorem length_append_record {next : HashIndex} {stored nextStored : Int64} {log : List Record}
    {record : Record} (layout : Layout hi stored log)
    (nextLayout : Layout next nextStored (record :: log))
    (bucketsEq : next.bucketCount = hi.bucketCount) :
    next.f.length = hi.f.length + (entryOverhead + record.key.length) := by
  rw [nextLayout.length_eq, layout.length_eq, bucketsEq, Chain.span, Record.size]
  omega

theorem newest_newRecord (count : Nat) (log : List Record) (key : Key) (addr : NeedleAddr)
    (expiresAt : Int64) (deleted : Bool) :
    newest (newRecord count log key addr expiresAt deleted :: log) =
      Function.update (newest log) key (if deleted then none else some (addr, expiresAt)) := by
  funext other
  rw [newest_cons]
  by_cases same : key = other
  · subst same
    rw [Function.update_self]
    exact if_pos rfl
  · rw [Function.update_of_ne (Ne.symm same)]
    exact if_neg same

theorem set (represents : Represents hi content) {key : Key} (keyFits : key.length ≤ 65535)
    (addr : NeedleAddr) (expiresAt : Int64)
    (roomy : room → hi.f.length + (entryOverhead + key.length) ≤ File.maxSize) :
    (Index.set key addr expiresAt).Returns room hi fun _ next =>
      Represents next (Function.update content key (some (addr, expiresAt))) ∧
        next.entryCount.toInt = hi.entryCount.toInt + 1 ∧
        next.f.length = hi.f.length + (entryOverhead + key.length) := by
  obtain ⟨_, log, layout, rfl, noTmp⟩ := represents
  refine .mono (set_returns layout keyFits roomy) ?_
  rintro _ next ⟨nextLayout, countEq, tmpEq, bucketsEq⟩
  refine ⟨⟨_, _, nextLayout, newest_newRecord .., tmpEq.trans noTmp⟩, countEq, ?_⟩
  exact length_append_record layout nextLayout bucketsEq

/-- Both writes of `Set` are carried out. -/
theorem set_complete (represents : Represents hi content) {key : Key}
    (keyFits : key.length ≤ 65535) (addr : NeedleAddr) (expiresAt : Int64)
    (roomy : hi.f.length + (entryOverhead + key.length) ≤ File.maxSize) (rest : List Fault) :
    ∃ next, Index.set key addr expiresAt hi (.complete :: .complete :: rest) =
        ⟨.ok (), next, rest, false⟩ ∧
      Represents next (Function.update content key (some (addr, expiresAt))) ∧
      next.f.length = hi.f.length + (entryOverhead + key.length) := by
  obtain ⟨_, _, layout, _⟩ := id represents
  have indexed : Index.set key addr expiresAt hi (.complete :: .complete :: rest) = _ :=
    appendEntry_complete layout.usable roomy _ _ rest
  have sets : (Index.set key addr expiresAt).Returns True hi _ :=
    represents.set keyFits addr expiresAt fun _ => roomy
  rcases sets.correct _ (congrArg Out.failed indexed) with ⟨_, _, holds, _, lengthEq⟩
  rw [indexed] at holds lengthEq
  exact ⟨_, indexed, holds, lengthEq⟩

theorem delete (represents : Represents hi content) {key : Key} (keyFits : key.length ≤ 65535)
    (roomy : room → hi.f.length + (entryOverhead + key.length) ≤ File.maxSize) :
    (Index.delete key).Returns room hi fun _ next =>
      Represents next (Function.update content key none) ∧
        next.entryCount.toInt = max 0 (hi.entryCount.toInt - 1) ∧
        next.f.length = hi.f.length + (entryOverhead + key.length) := by
  obtain ⟨_, log, layout, rfl, noTmp⟩ := represents
  refine .mono (delete_returns layout keyFits roomy) ?_
  rintro _ next ⟨nextLayout, countEq, tmpEq, bucketsEq⟩
  refine ⟨⟨_, _, nextLayout, newest_newRecord .., tmpEq.trans noTmp⟩, countEq, ?_⟩
  exact length_append_record layout nextLayout bucketsEq

theorem forEach_eq (represents : Represents hi content) (nowNs : Int64)
    (order : RangeOrder Key) :
    ∃ calls, forEach hi (Time.ofNano nowNs) order = .ok ⟨calls, none⟩ ∧
      Enumerates nowNs content calls := by
  obtain ⟨_, _, layout, rfl, _⟩ := represents
  exact layout.forEach_eq nowNs order

/-- The scan of the data region up to its end visits the live keys. -/
theorem forEachSmall_eq (represents : Represents hi content) (nowNs : Int64)
    (order : RangeOrder Key) :
    ∃ calls, forEachSmall hi (Time.ofNano nowNs) order hi.f.length = .ok ⟨calls, none⟩ ∧
      Enumerates nowNs content calls := by
  obtain ⟨_, _, layout, rfl, _⟩ := represents
  rw [← layout.writePos_eq]
  exact layout.forEachSmall_eq nowNs order

/-- So does the walk along the chains of all buckets. -/
theorem forEachLarge_eq (represents : Represents hi content) (nowNs : Int64) :
    ∃ calls, forEachLarge hi (Time.ofNano nowNs) = .ok ⟨calls, none⟩ ∧
      Enumerates nowNs content calls := by
  obtain ⟨_, _, layout, rfl, _⟩ := represents
  exact layout.forEachLarge_eq nowNs

theorem compact_goesBy (represents : Represents hi content) {now : Time} {nowNs : Int64}
    {order : RangeOrder Key}
    (goesBy : forEach hi now order = forEach hi (Time.ofNano nowNs) order)
    (roomy : room → ∀ calls, Enumerates nowNs content calls →
      dataStart (compactBuckets hi.entryCount).toNat + visitBytes calls ≤ File.maxSize) :
    (Index.compact now order).Delivers room hi fun _ next =>
      Represents next (prune nowNs content) ∧
        ∃ calls, Enumerates nowNs content calls ∧ next.entryCount.toInt = calls.length ∧
          next.f.length = dataStart (compactBuckets hi.entryCount).toNat + visitBytes calls := by
  obtain ⟨_, log, layout, rfl, noTmp⟩ := represents
  refine .mono (compact_fresh layout noTmp goesBy roomy) ?_
  rintro _ next ⟨_, _, calls, nextLayout, nextTmp, contentEq, enumerates, countEq, lengthEq⟩
  exact ⟨⟨_, _, nextLayout, contentEq, nextTmp⟩, calls, enumerates, countEq, lengthEq⟩

theorem compact_delivers (represents : Represents hi content) (nowNs : Int64)
    (order : RangeOrder Key)
    (roomy : room → ∀ calls, Enumerates nowNs content calls →
      dataStart (compactBuckets hi.entryCount).toNat + visitBytes calls ≤ File.maxSize) :
    (Index.compact (Time.ofNano nowNs) order).Delivers room hi fun _ next =>
      Represents next (prune nowNs content) ∧
        ∃ calls, Enumerates nowNs content calls ∧ next.entryCount.toInt = calls.length ∧
          next.f.length = dataStart (compactBuckets hi.entryCount).toNat + visitBytes calls :=
  represents.compact_goesBy rfl roomy

theorem compact (represents : Represents hi content) (nowNs : Int64) (order : RangeOrder Key)
    (roomy : room → ∀ calls, Enumerates nowNs content calls →
      dataStart (compactBuckets hi.entryCount).toNat + visitBytes calls ≤ File.maxSize) :
    (Index.compact (Time.ofNano nowNs) order).Returns room hi fun _ next =>
      Represents next (prune nowNs content) ∧
        ∃ calls, Enumerates nowNs content calls ∧ next.entryCount.toInt = calls.length ∧
          next.f.length = dataStart (compactBuckets hi.entryCount).toNat + visitBytes calls :=
  (represents.compact_delivers nowNs order roomy).returns

/-- `Close` leaves a file that holds the same content, with the entry count in its
header. -/
theorem close (represents : Represents hi content) :
    Index.close.Returns room hi fun _ next =>
      FileHolds next content hi.entryCount ∧ next.f.length = hi.f.length := by
  obtain ⟨_, log, layout, rfl, noTmp⟩ := represents
  refine .mono (close_returns layout) ?_
  rintro _ closed ⟨closedLayout, countEq, tmpEq, bucketsEq⟩
  refine ⟨⟨closed, log, closedLayout, rfl, rfl, tmpEq.trans noTmp, layout.count_nonneg,
    layout.count_le⟩, ?_⟩
  rw [closedLayout.length_eq, layout.length_eq, bucketsEq]

end Represents

/-- Opening a file gives the content it holds and the entry count of its header. -/
theorem FileHolds.open {file : HashIndex} {content : Content} {count : Int64}
    (fileHolds : FileHolds file content count) (bucketCount : UInt64) :
    (openHashIndex bucketCount).Returns room file fun _ next =>
      Represents next content ∧ next.entryCount = count ∧ next.f.length = file.f.length := by
  obtain ⟨hi, log, layout, rfl, fileEq, noTmp, nonneg, le⟩ := fileHolds
  refine .mono (openHashIndex_layout layout fileEq nonneg le bucketCount) ?_
  rintro _ next ⟨nextLayout, nextCount, nextTmp, nextBuckets, _⟩
  refine ⟨⟨_, _, nextLayout, rfl, nextTmp.trans noTmp⟩, nextCount, ?_⟩
  rw [nextLayout.length_eq, fileEq, layout.length_eq, nextBuckets]

/-- Closing the index and opening its file again changes nothing, and the entry
count survives. -/
theorem Represents.reopen {hi : HashIndex} {content : Content} (represents : Represents hi content)
    (bucketCount : UInt64) :
    (Index.close >>= fun _ => openHashIndex bucketCount).Returns room hi fun _ next =>
      Represents next content ∧ next.entryCount = hi.entryCount ∧
        next.f.length = hi.f.length := by
  refine .bind represents.close ?_
  rintro _ closed ⟨fileHolds, lengthEq⟩
  refine .mono (fileHolds.open bucketCount) ?_
  rintro _ next ⟨opened, countEq, sameLength⟩
  exact ⟨opened, countEq, sameLength.trans lengthEq⟩

/-- Opening an empty file gives an index without entries. -/
theorem openHashIndex_represents (bucketCount : UInt64)
    (roomy : room → dataStart (if bucketCount = 0 then defaultBucketCount
      else bucketCount).toNat ≤ File.maxSize) :
    (openHashIndex bucketCount).Returns room (HashIndex.ofFiles [] []) fun _ next =>
      Represents next (fun _ => none) ∧ next.entryCount = 0 ∧
        next.f.length = dataStart (if bucketCount = 0 then defaultBucketCount
          else bucketCount).toNat := by
  refine .mono (openHashIndex_fresh rfl bucketCount roomy) ?_
  rintro _ next ⟨layout, noEntries, noTmp, bucketsEq⟩
  refine ⟨⟨_, _, layout, rfl, noTmp⟩, noEntries, ?_⟩
  rw [layout.length_eq, bucketsEq]
  rfl

/-- There is an index without entries. -/
theorem exists_fresh :
    ∃ hi, Represents hi (fun _ => none) ∧ hi.entryCount = 0 ∧
      hi.f.length = dataStart defaultBucketCount.toNat := by
  have opens := @openHashIndex_represents True 0 fun _ => by decide
  rcases opens.correct [] (opens.undisturbed trivial).1 with ⟨_, _, represents, noEntries, lengthEq⟩
  exact ⟨_, represents, noEntries, lengthEq⟩

/-- There is an index with one entry. -/
theorem exists_oneEntry {key : Key} (keyFits : key.length ≤ 65535) (addr : NeedleAddr)
    (expiresAt : Int64) :
    ∃ hi, Represents hi (Function.update (fun _ => none) key (some (addr, expiresAt))) ∧
      hi.entryCount.toInt = 1 ∧
      hi.f.length = dataStart defaultBucketCount.toNat + (entryOverhead + key.length) := by
  rcases exists_fresh with ⟨fresh, represents, noEntries, lengthEq⟩
  have small : dataStart defaultBucketCount.toNat + (entryOverhead + 65535) ≤ File.maxSize := by
    decide
  have sets := @Represents.set True _ _ represents key keyFits addr expiresAt fun _ => by
    rw [lengthEq]
    exact (Nat.add_le_add_left (Nat.add_le_add_left keyFits _) _).trans small
  rcases sets.correct [] (sets.undisturbed trivial).1 with ⟨_, _, stored, countEq, grown⟩
  rw [noEntries] at countEq
  rw [lengthEq] at grown
  exact ⟨_, stored, countEq, grown⟩

/-! ## Runs of operations -/

/-- The operations on an open index.  `reopen` is `Close` followed by
`openHashIndex` on the same path. -/
inductive Op where
  | set (key : Key) (addr : NeedleAddr) (expiresAt : Int64)
  | delete (key : Key)
  | compact (now : Int64) (order : RangeOrder Key)
  | reopen (bucketCount : UInt64)

namespace Op

/-- Carry out an operation. -/
def run : Op → Exec HashIndex Unit
  | set key addr expiresAt => Index.set key addr expiresAt
  | delete key => Index.delete key
  | compact now order => Index.compact (Time.ofNano now) order
  | reopen bucketCount => do
      close
      openHashIndex bucketCount

/-- The key of the operation has at most 65535 bytes. -/
def KeyFits : Op → Prop
  | set key _ _ => key.length ≤ 65535
  | delete key => key.length ≤ 65535
  | compact _ _ => True
  | reopen _ => True

/-- What an operation does to the map the index stands for: `Compact` drops the
entries with an expiry between 0 and the given instant, and reopening changes
nothing. -/
def apply (content : Content) : Op → Content
  | set key addr expiresAt => Function.update content key (some (addr, expiresAt))
  | delete key => Function.update content key none
  | compact now _ => prune now content
  | reopen _ => content

/-- Every operation does to the index what it does to the map. -/
theorem run_represents {op : Op} (fits : op.KeyFits) {hi : HashIndex} {content : Content}
    (represents : Represents hi content) :
    op.run.Returns False hi fun _ next => Represents next (op.apply content) := by
  cases op with
  | set key addr expiresAt =>
      exact .mono (represents.set fits addr expiresAt False.elim) fun _ _ both => both.1
  | delete key =>
      exact .mono (represents.delete fits False.elim) fun _ _ both => both.1
  | compact now order =>
      exact .mono (represents.compact now order False.elim) fun _ _ both => both.1
  | reopen bucketCount =>
      exact .mono (represents.reopen bucketCount) fun _ _ both => both.1

end Op

/-- Open an empty file and carry out a run of operations on it. -/
def runFresh (bucketCount : UInt64) (ops : List Op) : Exec HashIndex Unit := do
  openHashIndex bucketCount
  Exec.each ops Op.run

/-- A run on a new file ends with an index that stands for the map the
operations build. -/
theorem runFresh_represents (bucketCount : UInt64) {ops : List Op}
    (fits : ∀ op ∈ ops, op.KeyFits) :
    (runFresh bucketCount ops).Returns False (HashIndex.ofFiles [] []) fun _ hi =>
      Represents hi (ops.foldl Op.apply fun _ => none) := by
  refine .bind (openHashIndex_represents bucketCount False.elim) ?_
  rintro _ opened ⟨represents, _⟩
  refine .each (fun done hi => Represents hi (done.foldl Op.apply fun _ => none)) ?_ represents
  intro before op after hi split held
  rw [List.foldl_append]
  exact Op.run_represents (fits op (by simp [split])) held

/-- After any run of operations in which no write fails, `Get` ends and returns
for every key the address and the expiry of the last `Set` that no later
`Delete` or `Compact` removed. -/
theorem get_after_run (bucketCount : UInt64) (ops : List Op) (fits : ∀ op ∈ ops, op.KeyFits)
    (faults : List Fault)
    (noFailure : (runFresh bucketCount ops (HashIndex.ofFiles [] []) faults).failed = false)
    (key : Key) :
    (runFresh bucketCount ops (HashIndex.ofFiles [] []) faults).res = .ok () ∧
      get (runFresh bucketCount ops (HashIndex.ofFiles [] []) faults).state key =
        .ok (ops.foldl Op.apply (fun _ => none) key) := by
  obtain ⟨_, ended, represents⟩ := (runFresh_represents bucketCount fits).correct faults noFailure
  exact ⟨ended, represents.get_eq key⟩

namespace Op

/-- A `Set` or a `Delete` of a key with at most 65535 bytes. -/
def Writes : Op → Prop
  | set key _ _ => key.length ≤ 65535
  | delete key => key.length ≤ 65535
  | compact _ _ => False
  | reopen _ => False

def IsSet : Op → Prop
  | set _ _ _ => True
  | delete _ => False
  | compact _ _ => False
  | reopen _ => False

end Op

/-- As long as the file has room, `Set` and `Delete` succeed, and every `Set` is counted. -/
theorem runFresh_writes {ops : List Op} {size : Nat} (writes : ∀ op ∈ ops, op.Writes)
    (sizeEq : size = entryOverhead + 65535)
    (roomy : dataStart 1 + ops.length * size ≤ File.maxSize) :
    (runFresh 1 ops).Returns True (HashIndex.ofFiles [] []) fun _ hi =>
      Represents hi (ops.foldl Op.apply fun _ => none) ∧
        hi.f.length ≤ dataStart 1 + ops.length * size ∧ hi.entryCount.toInt ≤ ops.length ∧
        ((∀ op ∈ ops, op.IsSet) → hi.entryCount.toInt = ops.length) := by
  refine .bind (openHashIndex_represents 1 fun _ => by decide) ?_
  rintro _ opened ⟨represents, noEntries, lengthEq⟩
  refine .each (fun done hi => Represents hi (done.foldl Op.apply fun _ => none) ∧
    hi.f.length ≤ dataStart 1 + done.length * size ∧ hi.entryCount.toInt ≤ done.length ∧
    ((∀ op ∈ done, op.IsSet) → hi.entryCount.toInt = done.length)) ?_
    ⟨represents, Nat.le_add_right_of_le (le_of_eq lengthEq), by simp [noEntries],
      fun _ => by simp [noEntries]⟩
  rintro before op after hi split ⟨held, short, count, counted⟩
  have within : dataStart 1 + (before.length + 1) * size ≤ File.maxSize := by
    refine le_trans (Nat.add_le_add_left (Nat.mul_le_mul_right size ?_) _) roomy
    rw [split, List.length_append, List.length_cons]
    omega
  have grows : ∀ key : Key, key.length ≤ 65535 →
      hi.f.length + (entryOverhead + key.length) ≤ dataStart 1 + (before.length + 1) * size := by
    intro key fits
    calc hi.f.length + (entryOverhead + key.length)
        ≤ dataStart 1 + before.length * size + size :=
          Nat.add_le_add short (sizeEq ▸ Nat.add_le_add_left fits _)
      _ = dataStart 1 + (before.length + 1) * size := by rw [Nat.add_assoc, Nat.succ_mul]
  have writesOp := writes op (by simp [split])
  rw [List.foldl_append]
  simp only [List.length_append, List.length_singleton, Nat.cast_add, Nat.cast_one]
  cases op with
  | set key addr expiresAt =>
      refine .mono (held.set writesOp addr expiresAt fun _ => (grows key writesOp).trans within) ?_
      rintro _ next ⟨nextHeld, countEq, grown⟩
      refine ⟨nextHeld, grown ▸ grows key writesOp, ?_, fun sets => ?_⟩
      · rw [countEq]
        exact Int.add_le_add_right count 1
      · rw [countEq, counted fun op mem => sets op (List.mem_append_left _ mem)]
  | delete key =>
      refine .mono (held.delete writesOp fun _ => (grows key writesOp).trans within) ?_
      rintro _ next ⟨nextHeld, countEq, grown⟩
      refine ⟨nextHeld, grown ▸ grows key writesOp, ?_, fun sets => ?_⟩
      · clear grows within roomy sizeEq
        omega
      · exact (sets _ (List.mem_append_right _ (List.mem_singleton_self _))).elim
  | compact now order => exact writesOp.elim
  | reopen bucketCount => exact writesOp.elim

/-- The new file of `Compact` has room for a single entry. -/
theorem Represents.compact_single {hi : HashIndex} {content : Content}
    (represents : Represents hi content) (few : hi.entryCount.toInt ≤ 2 ^ 19) {now : Time}
    {nowNs : Int64} {order : RangeOrder Key}
    (goesBy : forEach hi now order = forEach hi (Time.ofNano nowNs) order) {key : Key}
    {entry : NeedleAddr × Int64}
    (single : prune nowNs content = Function.update (fun _ => none) key (some entry)) :
    (Index.compact now order).Returns True hi fun _ next =>
      Represents next (prune nowNs content) := by
  have only : ∀ other : Visit, content other.key = some (other.addr, other.expiresAt) ∧
      ¬ Expired nowNs other.expiresAt ↔ other = ⟨key, entry.1, entry.2⟩ := by
    intro other
    rw [← @prune_eq_some nowNs content other.key (other.addr, other.expiresAt), single,
      Function.update_apply]
    rcases other with ⟨otherKey, addr, expiresAt⟩
    by_cases same : otherKey = key
    · simp [same, Prod.ext_iff, eq_comm]
    · simp [same]
  have keyFits : key.length ≤ 65535 :=
    represents.key_fits ((only ⟨key, entry.1, entry.2⟩).mpr rfl).1
  have nonneg : 0 ≤ hi.entryCount.toInt := by
    rcases represents with ⟨_, _, layout, _⟩
    exact layout.count_nonneg
  have enough : dataStart defaultBucketCount.toNat + (entryOverhead + 65535) ≤ File.maxSize := by
    decide
  refine .mono (represents.compact_goesBy goesBy fun _ calls enumerates => ?_).returns
    fun _ _ both => both.1
  rw [compactBuckets_of_le nonneg few, enumerates.eq_single only]
  exact (Nat.add_le_add_left (Nat.add_le_add_left keyFits _) _).trans enough

/-- Colliding keys, a tombstone, a `Compact` that drops an expired entry, and a restart. -/
theorem get_after_run_compacted :
    let ops : List Op := [.set [107] ⟨0, 4, 1⟩ 7, .set [108] ⟨1, 0, 2⟩ 0, .set [109] ⟨1, 2, 2⟩ 0,
      .delete [109], .compact 8 (.asStored _), .reopen 1]
    ∀ key, get (runFresh 1 ops (HashIndex.ofFiles [] []) []).state key =
      .ok (if key = [108] then some (⟨1, 0, 2⟩, 0) else none) := by
  intro ops key
  let writes : List Op := [.set [107] ⟨0, 4, 1⟩ 7, .set [108] ⟨1, 0, 2⟩ 0,
    .set [109] ⟨1, 2, 2⟩ 0, .delete [109]]
  have pruned : prune 8 (writes.foldl Op.apply fun _ => none) =
      Function.update (fun _ => none) [108] (some (⟨1, 0, 2⟩, 0)) := by
    funext other
    simp only [prune, writes, List.foldl, Op.apply, Function.update_apply]
    split_ifs <;> simp_all [Expired]
  have quiet : (runFresh 1 (writes ++ [.compact 8 (.asStored _), .reopen 1])).Returns True
      (HashIndex.ofFiles [] []) fun _ _ => True := by
    unfold runFresh
    rw [Exec.each_append, ← LawfulMonad.bind_assoc]
    refine .bind (runFresh_writes (by simp [writes, Op.Writes]) rfl (by decide)) ?_
    rintro _ hi ⟨held, _, few, _⟩
    refine .bind (held.compact_single (le_trans few (by decide)) rfl pruned) ?_
    intro _ next compacted
    refine .bind (.mono (compacted.reopen 1) fun _ _ _ => trivial) ?_
    exact fun _ _ _ => .pure trivial
  rw [(get_after_run 1 ops (by simp [ops, Op.KeyFits]) [] (quiet.undisturbed trivial).1 key).2,
    ← Function.update_apply (fun _ => none), ← pruned]
  rfl

theorem Op.foldl_replicate_set (count : Nat) (content : Content) (key : Key) (addr : NeedleAddr)
    (expiresAt : Int64) :
    (List.replicate (count + 1) (Op.set key addr expiresAt)).foldl Op.apply content =
      Function.update content key (some (addr, expiresAt)) := by
  induction count with
  | zero => rfl
  | succ count ih =>
      rw [List.replicate_succ', List.foldl_append, ih]
      exact Function.update_idem _ _ _

/-- With that many entries `Compact` goes by the wrapped clock reading of `forEachLarge`. -/
theorem compact_wraps {count : Nat} (many : 100000 ≤ count + 1) (few : count + 1 ≤ 2 ^ 19)
    (order : RangeOrder Key) :
    (do runFresh 1 (List.replicate (count + 1) (.set [107] ⟨0, 4, 1⟩ 7))
        Index.compact (2 ^ 63) order : Exec HashIndex Unit).Returns True
      (HashIndex.ofFiles [] []) fun _ hi => get hi [107] = .ok (some (⟨0, 4, 1⟩, 7)) := by
  have roomy : dataStart 1 + (List.replicate (count + 1) (Op.set [107] ⟨0, 4, 1⟩ 7)).length *
      (entryOverhead + 65535) ≤ File.maxSize := by
    rw [List.length_replicate]
    exact (Nat.add_le_add_left (Nat.mul_le_mul_right _ few) _).trans (by decide)
  refine .bind (runFresh_writes ?_ rfl roomy) ?_
  · intro op mem
    rw [List.eq_of_mem_replicate mem]
    change 1 ≤ 65535
    decide
  rintro _ hi ⟨held, _, -, counted⟩
  rw [Op.foldl_replicate_set] at held
  have entries : hi.entryCount.toInt = (count + 1 : Nat) := by
    rw [counted fun op mem => by rw [List.eq_of_mem_replicate mem]; trivial, List.length_replicate]
  have large : ¬ hi.entryCount < forEachThreshold := by
    rw [Int64.lt_iff_toInt_lt, entries]
    change ¬ ((count + 1 : Nat) : Int) < 100000
    omega
  have goesBy : forEach hi (2 ^ 63) order =
      forEach hi (Time.ofNano (Time.unixNano (2 ^ 63))) order := by
    rw [forEach, forEach, if_neg large, if_neg large]
    rfl
  have single : prune (Time.unixNano (2 ^ 63))
      (Function.update (fun _ => none) [107] (some (⟨0, 4, 1⟩, 7))) =
        Function.update (fun _ => none) [107] (some (⟨0, 4, 1⟩, 7)) := by
    funext key
    rw [prune, Function.update_apply]
    split_ifs <;> rfl
  refine .mono (held.compact_single (by rw [entries]; exact_mod_cast few) goesBy single) ?_
  intro _ next compacted
  rw [compacted.get_eq, single, Function.update_self]

/-- After 100000 sets of a key, a `Compact` at an instant that `UnixNano` cannot represent does
not drop it although its expiry has passed. -/
theorem get_finds_expired :
    let out := (do runFresh 1 (List.replicate 100000 (.set [107] ⟨0, 4, 1⟩ 7))
                   Index.compact (2 ^ 63) (.asStored _) : Exec HashIndex Unit)
      (HashIndex.ofFiles [] []) []
    out.failed = false ∧ out.res = .ok () ∧ (0 < (7 : Int64) ∧ Time.ofNano 7 < 2 ^ 63) ∧
      get out.state [107] = .ok (some (⟨0, 4, 1⟩, 7)) := by
  have ends := @compact_wraps 99999 (by decide) (by decide) (.asStored _)
  have quiet := (ends.undisturbed trivial).1
  rcases ends.correct [] quiet with ⟨_, ended, found⟩
  exact ⟨quiet, ended, by decide, found⟩

/-! ## The two strategies of `ForEach` -/

/-- Enumerating the live entries means visiting each key once that `Get` finds
unexpired. -/
theorem Enumerates.mem_iff_get {hi : HashIndex} {content : Content} {nowNs : Int64}
    {calls : List Visit} (enumerates : Enumerates nowNs content calls)
    (represents : Represents hi content) (visit : Visit) :
    visit ∈ calls ↔ get hi visit.key = .ok (some (visit.addr, visit.expiresAt)) ∧
      ¬ (0 < visit.expiresAt ∧ Time.ofNano visit.expiresAt < Time.ofNano nowNs) := by
  rw [enumerates.mem_iff, represents.get_eq, Expired, Time.ofNano_lt_ofNano, Res.ok.injEq]

/-- After any run of operations in which no write fails, both strategies of `ForEach`
call their callback for the same entries: once for each key that `Get` finds and that
has not expired. -/
theorem forEachSmall_forEachLarge (bucketCount : UInt64) (ops : List Op)
    (fits : ∀ op ∈ ops, op.KeyFits) (faults : List Fault)
    (noFailure : (runFresh bucketCount ops (HashIndex.ofFiles [] []) faults).failed = false)
    {now : Time} (low : -2 ^ 63 ≤ now) (high : now < 2 ^ 63) (order : RangeOrder Key) :
    ∃ small large,
      forEachSmall (runFresh bucketCount ops (HashIndex.ofFiles [] []) faults).state now order
          (runFresh bucketCount ops (HashIndex.ofFiles [] []) faults).state.f.length =
        .ok ⟨small, none⟩ ∧
      forEachLarge (runFresh bucketCount ops (HashIndex.ofFiles [] []) faults).state now =
        .ok ⟨large, none⟩ ∧
      (small.map Visit.key).Nodup ∧ (large.map Visit.key).Nodup ∧
      (∀ visit, visit ∈ small ↔ visit ∈ large) ∧
      ∀ visit, visit ∈ small ↔
        get (runFresh bucketCount ops (HashIndex.ofFiles [] []) faults).state visit.key =
            .ok (some (visit.addr, visit.expiresAt)) ∧
          ¬ (0 < visit.expiresAt ∧ Time.ofNano visit.expiresAt < now) := by
  rcases (runFresh_represents bucketCount fits).correct faults noFailure with ⟨_, -, represents⟩
  have nowEq : Time.ofNano (Time.unixNano now) = now := Time.ofNano_unixNano low high
  rcases represents.forEachSmall_eq (Time.unixNano now) order with ⟨small, smallEq, scanned⟩
  rcases represents.forEachLarge_eq (Time.unixNano now) with ⟨large, largeEq, walked⟩
  rw [nowEq] at smallEq largeEq
  refine ⟨small, large, smallEq, largeEq, scanned.nodup, walked.nodup, fun visit => ?_,
    fun visit => ?_⟩
  · rw [scanned.mem_iff, walked.mem_iff]
  · rw [scanned.mem_iff_get represents, nowEq]

/-- Two keys in one bucket, one of which has expired. -/
theorem forEachSmall_forEachLarge_twoKeys :
    ∃ small large,
      forEachSmall (runFresh 1 [.set [107] ⟨0, 4, 1⟩ 7, .set [108] ⟨1, 0, 2⟩ 0]
          (HashIndex.ofFiles [] []) []).state 8 (.asStored _)
          (runFresh 1 [.set [107] ⟨0, 4, 1⟩ 7, .set [108] ⟨1, 0, 2⟩ 0]
            (HashIndex.ofFiles [] []) []).state.f.length = .ok ⟨small, none⟩ ∧
      forEachLarge (runFresh 1 [.set [107] ⟨0, 4, 1⟩ 7, .set [108] ⟨1, 0, 2⟩ 0]
          (HashIndex.ofFiles [] []) []).state 8 = .ok ⟨large, none⟩ ∧
      (small.map Visit.key).Nodup ∧ (large.map Visit.key).Nodup ∧
      (∀ visit, visit ∈ small ↔ visit ∈ large) ∧
      ∀ visit, visit ∈ small ↔
        get (runFresh 1 [.set [107] ⟨0, 4, 1⟩ 7, .set [108] ⟨1, 0, 2⟩ 0]
          (HashIndex.ofFiles [] []) []).state visit.key =
            .ok (some (visit.addr, visit.expiresAt)) ∧
          ¬ (0 < visit.expiresAt ∧ Time.ofNano visit.expiresAt < 8) :=
  forEachSmall_forEachLarge 1 [.set [107] ⟨0, 4, 1⟩ 7, .set [108] ⟨1, 0, 2⟩ 0]
    (by simp [Op.KeyFits]) [] (by decide +kernel) (by decide) (by decide) (.asStored _)

/-- At an instant that `UnixNano` cannot represent, the walk visits a key that the scan
takes for expired. -/
theorem forEachSmall_ne_forEachLarge :
    (runFresh 1 [.set [107] ⟨0, 4, 1⟩ 7] (HashIndex.ofFiles [] []) []).failed = false ∧
      forEachSmall (runFresh 1 [.set [107] ⟨0, 4, 1⟩ 7] (HashIndex.ofFiles [] []) []).state
          (2 ^ 63) (.asStored _)
          (runFresh 1 [.set [107] ⟨0, 4, 1⟩ 7] (HashIndex.ofFiles [] []) []).state.f.length =
        .ok ⟨[], none⟩ ∧
      forEachLarge (runFresh 1 [.set [107] ⟨0, 4, 1⟩ 7] (HashIndex.ofFiles [] []) []).state
          (2 ^ 63) =
        .ok ⟨[⟨[107], ⟨0, 4, 1⟩, 7⟩], none⟩ := by
  decide +kernel

end BriseDB.Index
