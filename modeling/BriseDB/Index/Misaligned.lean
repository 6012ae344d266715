import BriseDB.Index.Torn

/-!
# A key that ends the iteration

The scan of `forEachSmall` goes from entry to entry by their sizes.  An entry of a key with
65536 bytes is stored with the length 0, so the scan goes on in the middle of the key.  For the
key below it finds there an entry that claims to be longer than the rest of the file, and fails.
`Get` follows the links and still finds all other keys.
-/

namespace BriseDB.Index

open Bytes (putLE getLE)
open File (readAt)

/-- A key of 65536 bytes. -/
@[irreducible]
def overlongKey : Key :=
  List.replicate 28 0 ++ ([1] ++ List.replicate 65507 255)

theorem length_overlongKey : overlongKey.length = 65536 := by
  rw [overlongKey, List.length_append, List.length_append, List.length_replicate,
    List.length_replicate]
  rfl

/-- The entry of the key begins with a tombstone of the empty key. -/
theorem encodeIndexEntry_overlongKey (next : Nat) (addr : NeedleAddr) (expiresAt : Int64) :
    ∃ rest, encodeIndexEntry next overlongKey addr expiresAt false =
        encodeIndexEntry next [] default 0 true ++ (List.replicate 65507 255 ++ rest) ∧
      rest.length = 29 := by
  have lengthEq : putLE 2 overlongKey.length = putLE 2 0 := by
    rw [length_overlongKey]
    decide
  have tombstone : encodeIndexEntry next [] default 0 true =
      putLE 8 next ++ (putLE 2 0 ++ (List.replicate 28 0 ++ [1])) := by
    unfold encodeIndexEntry
    simp only [List.append_assoc]
    rfl
  refine ⟨putLE 4 addr.volumeID.toNat ++ (putLE 8 addr.offset.toNat ++ (putLE 8 addr.size.toNat ++
    (putLE 8 expiresAt.toUInt64.toNat ++ [0]))), ?_, by simp⟩
  rw [tombstone, encodeIndexEntry, lengthEq]
  unfold overlongKey
  simp only [List.append_assoc]
  rfl

/-- What follows the tombstone is not an entry. -/
theorem readEntryAt_garbage {before rest : Bytes} (short : rest.length = 29) :
    ∃ cause, readEntryAt (before ++ (List.replicate 65507 255 ++ rest)) before.length =
      .error cause := by
  cases isEntry : readEntryAt (before ++ (List.replicate 65507 255 ++ rest)) before.length with
  | error cause => exact ⟨cause, rfl⟩
  | ok e =>
      have found := (readEntryAt_eq_ok.mp isEntry).2
      have keyLen : getLE (readAt (List.replicate 65507 255 ++ rest) 8 2) = 65535 := by
        rw [File.readAt_append_left (by rw [List.length_replicate]; decide), readAt,
          List.drop_replicate, List.take_replicate]
        decide
      rw [List.drop_left] at found
      unfold entryOf at found
      simp only [keyLen] at found
      rw [if_neg] at found
      · cases found
      · rw [List.length_append, List.length_replicate, short]
        decide

/-- The scan gets through the log that was there before. -/
theorem Layout.loop_scanStep_through {hi : HashIndex} {stored : Int64} {log : List Record}
    (layout : Layout hi stored log) {other : Bytes}
    (grown : Grown (dataStart hi.bucketCount) hi.f other) {writePos : Nat}
    (further : hi.writePos ≤ writePos) (newer older : List Record) (split : log = newer ++ older)
    (fuel : Nat) :
    Res.loop (scanStep other writePos) (newer.length + fuel)
        (dataStart hi.bucketCount + Chain.span Record.size older, latestTable older) =
      Res.loop (scanStep other writePos) fuel (hi.writePos, latestTable log) := by
  have position : hi.writePos = dataStart hi.bucketCount + Chain.span Record.size log := by
    rw [layout.writePos_eq, layout.length_eq]
  induction newer using List.reverseRecOn generalizing older with
  | nil =>
      rw [List.nil_append] at split
      rw [List.length_nil, Nat.zero_add, position, split]
  | append_singleton front record ih =>
      have here : log = front ++ record :: older := by simp [split]
      have before : ¬ (writePos ≤ dataStart hi.bucketCount + Chain.span Record.size older ∧
          dataStart hi.bucketCount + Chain.span Record.size older < 2 ^ 63) := by
        have positive := record.size_pos
        rw [here, Chain.span_append, Chain.span] at position
        omega
      have step : scanStep other writePos
          (dataStart hi.bucketCount + Chain.span Record.size older, latestTable older) =
          .ok (.inl (dataStart hi.bucketCount + Chain.span Record.size (record :: older),
            latestTable (record :: older))) := by
        simp only [scanStep, if_neg before, latestTable, Chain.span, Record.latest,
          grown.readEntryAt (Nat.le_add_right _ _) (layout.readEntryAt_eq here)]
        rw [Nat.add_comm record.size, Nat.add_assoc]
      rw [List.length_append, List.length_singleton, Nat.add_right_comm, Res.loop_continue step]
      exact ih (record :: older) here

section

variable {hi : HashIndex} {stored : Int64} {log : List Record} {room : Prop}

/-- The index has got a new entry at the head of a bucket, which reads as a tombstone of the
empty key, and no entry can be read behind that. -/
structure Misread (hi next : HashIndex) (slot : Nat) : Prop where
  usable : Usable next
  grown : Grown (dataStart hi.bucketCount) hi.f next.f
  bucketCount_eq : next.bucketCount = hi.bucketCount
  dataBase_eq : next.dataBase = hi.dataBase
  buckets_eq : next.buckets = hi.buckets.set slot hi.writePos
  first : readEntryAt next.f hi.writePos =
    .ok (newEntry (hi.buckets.getD slot 0) [] default 0 true)
  second : ∃ cause, readEntryAt next.f (hi.writePos + 39) = .error cause
  longer : hi.writePos + 39 < next.writePos

theorem Misread.get_eq {next : HashIndex} {slot : Nat} (misread : Misread hi next slot)
    (layout : Layout hi stored log) (slotLt : slot < hi.bucketCount) {key : Key}
    (notEmpty : key ≠ []) : get next key = get hi key := by
  rcases layout.chains with ⟨chain, chains, -⟩
  have walk := (chains.walks _ (chains.slot_lt key)).grow misread.grown
  rw [chains.get_eq key]
  by_cases same : slot = (fnv64a key).toNat % hi.bucketCount
  · have head : next.buckets.getD ((fnv64a key).toNat % next.bucketCount) 0 = hi.writePos := by
      rw [misread.buckets_eq, misread.bucketCount_eq, ← same, List.getD_eq_getElem?_getD,
        List.getElem?_set_self (layout.buckets_length ▸ slotLt), Option.getD_some]
    rw [← same] at walk ⊢
    have longer : Walk next.f (dataStart hi.bucketCount)
        (next.buckets.getD ((fnv64a key).toNat % next.bucketCount) 0)
        (newEntry (hi.buckets.getD slot 0) [] default 0 true :: chain slot) := by
      rw [head]
      refine .step ?_ ?_ misread.first ?_ walk
      · exact layout.writePos_eq ▸ layout.usable.nonempty
      · exact layout.writePos_eq ▸ layout.usable.table
      · exact layout.writePos_eq ▸ (chains.walks slot slotLt).off_lt layout.usable.nonempty
    rw [get_of_walk misread.usable.bucketCount_pos.ne' misread.usable.nonempty longer, found_cons]
    exact congrArg Res.ok (if_neg (Ne.symm notEmpty))
  · have head : next.buckets.getD ((fnv64a key).toNat % next.bucketCount) 0 =
        hi.buckets.getD ((fnv64a key).toNat % hi.bucketCount) 0 := by
      rw [misread.buckets_eq, misread.bucketCount_eq, List.getD_eq_getElem?_getD,
        List.getElem?_set_ne same, ← List.getD_eq_getElem?_getD]
    rw [← head] at walk
    exact get_of_walk misread.usable.bucketCount_pos.ne' misread.usable.nonempty walk

theorem Misread.forEachSmall_eq {next : HashIndex} {slot : Nat} (misread : Misread hi next slot)
    (layout : Layout hi stored log) (now : Time) (order : RangeOrder Key) :
    ∃ cause, forEachSmall next now order next.writePos = .ok ⟨[], some cause⟩ := by
  have longer := misread.longer
  rcases misread.second with ⟨cause, second⟩
  have firstStep : scanStep next.f next.writePos (hi.writePos, latestTable log) =
      .ok (.inl (hi.writePos + 39, (latestTable log).insert [] ⟨default, 0, true⟩)) := by
    rw [scanStep, if_neg (by omega), misread.first]
    rfl
  have secondStep : ∀ latest, scanStep next.f next.writePos (hi.writePos + 39, latest) =
      .ok (.inr (.error s!"hash index ForEach at {hi.writePos + 39}: {cause}")) := by
    intro latest
    rw [scanStep, if_neg (by omega), second]
  obtain ⟨fuel, fuelEq⟩ : ∃ fuel, next.writePos + 1 = log.length + (fuel + 1 + 1) := by
    have size := length_le_span log
    have total := layout.length_eq
    rw [← layout.writePos_eq] at total
    exact ⟨next.writePos - log.length - 1, by omega⟩
  have through := layout.loop_scanStep_through misread.grown
    (show hi.writePos ≤ next.writePos by omega) log [] (List.append_nil log).symm (fuel + 1 + 1)
  rw [Chain.span, Nat.add_zero] at through
  have scanned : Res.loop (scanStep next.f next.writePos) (next.writePos + 1) (next.dataBase, ∅) =
      .ok (.error s!"hash index ForEach at {hi.writePos + 39}: {cause}") := by
    rw [fuelEq, misread.dataBase_eq, layout.dataBase_eq]
    exact through.trans ((Res.loop_continue firstStep _).trans (Res.loop_stop (secondStep _) _))
  exact ⟨_, by rw [forEachSmall, scanned]; rfl⟩

/-- The index after the key has been set: `ForEach` visits nothing and fails, and `Get`
finds what it found before. -/
structure Misaligned (hi next : HashIndex) : Prop where
  usable : Usable next
  length_eq : next.f.length = hi.f.length + (entryOverhead + overlongKey.length)
  count_eq : next.entryCount = hi.entryCount + 1
  get_eq : ∀ key ≠ [], get next key = get hi key
  forEachSmall_eq : ∀ now order, ∃ cause,
    forEachSmall next now order next.writePos = .ok ⟨[], some cause⟩

theorem Layout.misread (layout : Layout hi stored log) {addr : NeedleAddr} {expiresAt : Int64}
    (fits : hi.writePos + (entryOverhead + overlongKey.length) ≤ File.maxSize) {slot : Nat}
    (slotLt : slot < hi.bucketCount) (entryCount : Int64) :
    Misread hi (Index.appended hi slot (encodeIndexEntry (hi.buckets.getD slot 0) overlongKey addr
      expiresAt false) entryCount) slot := by
  rcases encodeIndexEntry_overlongKey (hi.buckets.getD slot 0) addr expiresAt with
    ⟨rest, entryEq, restLength⟩
  have entryLength : (encodeIndexEntry (hi.buckets.getD slot 0) overlongKey addr expiresAt
      false).length = entryOverhead + overlongKey.length := length_encodeIndexEntry ..
  set entry := encodeIndexEntry (hi.buckets.getD slot 0) overlongKey addr expiresAt false
  rcases layout.usable.appended slotLt (entryLength ▸ fits) entryCount with
    ⟨usable, before, sameLength, contents⟩
  have position : hi.writePos = before.length := by rw [sameLength, layout.writePos_eq]
  have inFile : before.length < 2 ^ 63 := by
    have within := layout.within
    unfold File.maxSize at within
    omega
  refine ⟨usable, (Grown.append ..).trans (layout.usable.appended_grown slotLt entry entryCount),
    rfl, rfl, rfl, ?_, ?_, ?_⟩
  · rw [contents, entryEq, position]
    exact readEntryAt_encodeIndexEntry inFile
      (lt_trans (layout.usable.heads_fit slot slotLt) (by decide)) (by decide)
  · have tombstone : (encodeIndexEntry (hi.buckets.getD slot 0) [] default 0 true).length = 39 :=
      length_encodeIndexEntry ..
    rw [contents, entryEq, ← List.append_assoc, position, ← tombstone, ← List.length_append]
    exact readEntryAt_garbage restLength
  · change _ < hi.writePos + entry.length
    rw [entryLength, length_overlongKey]
    exact Nat.add_lt_add_left (by decide) _

theorem Layout.set_overlongKey (layout : Layout hi stored log) (addr : NeedleAddr)
    (expiresAt : Int64)
    (roomy : room → hi.f.length + (entryOverhead + overlongKey.length) ≤ File.maxSize) :
    (set overlongKey addr expiresAt).Returns room hi fun _ next => Misaligned hi next := by
  refine .mono (appendEntry_appends layout.usable roomy _ _) ?_
  rintro _ _ ⟨rfl, fits⟩
  have slotLt : (fnv64a overlongKey).toNat % hi.bucketCount < hi.bucketCount :=
    Nat.mod_lt _ layout.bucketCount_pos
  have misread := @Layout.misread hi stored log layout addr expiresAt fits _ slotLt
    (hi.entryCount + 1)
  refine ⟨misread.usable, ?_, rfl, fun key => misread.get_eq layout slotLt,
    misread.forEachSmall_eq layout⟩
  rw [← misread.usable.writePos_eq, ← layout.writePos_eq]
  exact congrArg (hi.writePos + ·) (length_encodeIndexEntry ..)

end

end BriseDB.Index
