import BriseDB.Index.Refinement

/-!
# Keys that are too long

The length of a key is stored in two bytes, and `Set` does not check it.  A key of
65536 bytes is stored with length 0, so its entry reads as one of the empty key,
with the first bytes of the key in place of the address and the tombstone flag.
`longKey` has the hash of the empty key, so that its entry also lies in the chain
of the empty key, and reads as a tombstone there.
-/

namespace BriseDB.Index

open Bytes (putLE getLE)
open File (readAt)

/-- Hashing zero bytes multiplies by a power of the prime. -/
theorem foldl_zeros (n : Nat) (hash : UInt64) :
    (List.replicate n (0 : UInt8)).foldl
        (fun hash byte => (hash ^^^ byte.toUInt64) * 1099511628211) hash =
      hash * UInt64.ofNat (1099511628211 ^ n) := by
  induction n generalizing hash with
  | zero => simp
  | succ n ih =>
      rw [List.replicate_succ, List.foldl_cons, ih, Nat.pow_succ, UInt64.ofNat_mul]
      change (hash ^^^ 0) * 1099511628211 * UInt64.ofNat (1099511628211 ^ n) =
        hash * (UInt64.ofNat (1099511628211 ^ n) * 1099511628211)
      rw [UInt64.xor_zero, UInt64.mul_assoc, UInt64.mul_comm 1099511628211]

/-- The end of the long key, chosen for its hash. -/
def longKeyEnd : Bytes :=
  [80, 0, 19, 108, 77, 44, 56, 254, 11, 117, 10, 40, 28, 38, 12, 11]

/-- A key of 65536 bytes. -/
@[irreducible]
def longKey : Key :=
  List.replicate 28 0 ++ ([1] ++ (List.replicate 65491 0 ++ longKeyEnd))

theorem length_longKey : longKey.length = 65536 := by
  rw [longKey, List.length_append, List.length_append, List.length_append, List.length_replicate,
    List.length_replicate]
  rfl

theorem fnv64a_longKey : fnv64a longKey = fnv64a [] := by
  unfold fnv64a longKey
  rw [List.foldl_append, List.foldl_append, List.foldl_append, foldl_zeros, foldl_zeros]
  decide +kernel

/-- The entry of the long key reads as a tombstone of the empty key. -/
theorem readEntryAt_longKey {before after : Bytes} (next : Nat) (addr : NeedleAddr)
    (expiresAt : Int64) (inFile : before.length < 2 ^ 63) :
    ∃ e, readEntryAt (before ++ (encodeIndexEntry next longKey addr expiresAt false ++ after))
        before.length = .ok e ∧ e.key = [] ∧ e.deleted = true := by
  -- the first 39 bytes are all that is read of the entry
  set front := putLE 8 next ++ (putLE 2 65536 ++ (List.replicate 28 0 ++ [1])) with frontDef
  have frontLength : front.length = 39 := by simp [frontDef]
  obtain ⟨rest, split⟩ : ∃ rest, encodeIndexEntry next longKey addr expiresAt false ++ after =
      front ++ rest := by
    unfold encodeIndexEntry
    rw [length_longKey, longKey, frontDef]
    simp only [List.append_assoc]
    exact ⟨_, rfl⟩
  set ahead := readAt (before ++ (front ++ rest)) before.length entryReadAheadSize with aheadDef
  have aheadEq : ahead = (front ++ rest).take entryReadAheadSize :=
    File.readAt_append_right' rfl _ _
  have readAhead : entryReadAheadSize = 256 := rfl
  have aheadLength : 39 ≤ ahead.length := by
    rw [aheadEq, List.length_take, List.length_append, frontLength]
    omega
  have frontEq : ahead.take 39 = front := by
    rw [aheadEq, List.take_take, Nat.min_eq_left (by omega), ← frontLength, List.take_left]
  have keyLenEq : getLE (readAt ahead 8 2) = 0 := by
    have bytes : readAt ahead 8 2 = readAt (ahead.take 39) 8 2 := by
      simp only [readAt, List.drop_take, List.take_take]
      rfl
    rw [bytes, frontEq, frontDef, File.readAt_field (by simp) (by simp)]
    rfl
  have overhead : entryOverhead = 39 := rfl
  refine ⟨decodeEntry front (getLE (readAt ahead 0 8)) 0, ?_, rfl, ?_⟩
  · unfold readEntryAt
    rw [split]
    simp only [if_pos inFile, ← aheadDef, keyLenEq, Nat.add_zero, overhead]
    rw [if_neg (by omega), if_pos aheadLength, frontEq]
  · change (front.getD 38 0 != 0) = true
    have flag : front.getD 38 0 = 1 := by
      rw [frontDef, List.getD_eq_getElem?_getD, List.getElem?_append_right (by simp)]
      simp
    rw [flag]
    rfl

/-! ## Setting keys in any usable index -/

section

variable {room : Prop} {hi : HashIndex}

/-- `Get` of a key whose entry heads its chain. -/
theorem Usable.get_of_head (usable : Usable hi) {key : Key} {e : IdxEntry} {head : Nat}
    (isHead : hi.buckets.getD ((fnv64a key).toNat % hi.bucketCount) 0 = head) (notEnd : head ≠ 0)
    (isEntry : readEntryAt hi.f head = .ok e) (same : e.key = key) :
    get hi key = .ok (if e.deleted then none else some (e.addr, e.expiresAt)) := by
  rw [get, usable.hashSlot_eq, Res.ok_bind, isHead]
  refine Res.loop_stop ?_ _
  simp [getStep, notEnd, isEntry, same]

/-- Appending an entry that reads as one of a key with the same hash. -/
theorem Usable.set_returns (usable : Usable hi) {key read : Key} {addr : NeedleAddr}
    {expiresAt : Int64} (sameHash : fnv64a key = fnv64a read)
    (roomy : room → hi.f.length + (entryOverhead + key.length) ≤ File.maxSize)
    {found : Option (NeedleAddr × Int64)}
    (reads : ∀ (next : Nat) (before : Bytes), next < 2 ^ 64 → before.length < 2 ^ 63 →
      ∃ e, readEntryAt (before ++ (encodeIndexEntry next key addr expiresAt false ++ []))
          before.length = .ok e ∧ e.key = read ∧
        (if e.deleted then none else some (e.addr, e.expiresAt)) = found) :
    (Index.set key addr expiresAt).Returns room hi fun _ next =>
      Usable next ∧ get next read = .ok found ∧
        next.f.length = hi.f.length + (entryOverhead + key.length) := by
  refine .mono (appendEntry_appends usable roomy _ _) ?_
  rintro _ _ ⟨rfl, fits⟩
  set slot := (fnv64a key).toNat % hi.bucketCount with slotDef
  have slotLt : slot < hi.bucketCount := Nat.mod_lt _ usable.bucketCount_pos
  set entry := encodeIndexEntry (hi.buckets.getD slot 0) key addr expiresAt false with entryDef
  have entryFits : hi.writePos + entry.length ≤ File.maxSize := by
    rw [entryDef, length_encodeIndexEntry]
    exact fits
  rcases usable.appended slotLt entryFits (hi.entryCount + 1) with
    ⟨nextUsable, before, sameLength, contents⟩
  have inFile : before.length < 2 ^ 63 := by
    have within := usable.within
    unfold File.maxSize at within
    omega
  rcases reads _ before (lt_trans (usable.heads_fit slot slotLt) (by decide)) inFile with
    ⟨e, isEntry, keyEq, rfl⟩
  rw [List.append_nil, ← entryDef, ← contents] at isEntry
  have isHead : (Index.appended hi slot entry (hi.entryCount + 1)).buckets.getD
      ((fnv64a read).toNat % hi.bucketCount) 0 = before.length := by
    change (hi.buckets.set slot hi.writePos).getD _ 0 = _
    rw [← sameHash, ← slotDef, List.getD_eq_getElem?_getD,
      List.getElem?_set_self (usable.buckets_length ▸ slotLt), Option.getD_some,
      usable.writePos_eq, sameLength]
  have notEnd : before.length ≠ 0 := by
    have table := usable.table
    unfold dataStart hiHeaderSize at table
    omega
  refine ⟨nextUsable, nextUsable.get_of_head isHead notEnd isEntry keyEq, ?_⟩
  rw [contents, List.length_append, sameLength, entryDef, length_encodeIndexEntry]

/-- A key that is not too long is found after it has been set. -/
theorem Usable.set_found (usable : Usable hi) {key : Key} (keyFits : key.length ≤ 65535)
    (addr : NeedleAddr) (expiresAt : Int64)
    (roomy : room → hi.f.length + (entryOverhead + key.length) ≤ File.maxSize) :
    (Index.set key addr expiresAt).Returns room hi fun _ next =>
      Usable next ∧ get next key = .ok (some (addr, expiresAt)) ∧
        next.f.length = hi.f.length + (entryOverhead + key.length) :=
  usable.set_returns rfl roomy fun _ _ nextFits inFile =>
    ⟨_, readEntryAt_encodeIndexEntry inFile nextFits keyFits, rfl, rfl⟩

/-- Setting the long key hides the empty one. -/
theorem Usable.set_longKey (usable : Usable hi) (addr : NeedleAddr) (expiresAt : Int64)
    (roomy : room → hi.f.length + (entryOverhead + 65536) ≤ File.maxSize) :
    (Index.set longKey addr expiresAt).Returns room hi fun _ next =>
      Usable next ∧ get next [] = .ok none ∧
        next.f.length = hi.f.length + (entryOverhead + longKey.length) := by
  refine usable.set_returns fnv64a_longKey
    (fun enough => by rw [length_longKey]; exact roomy enough) fun next before _ inFile => ?_
  rcases readEntryAt_longKey next addr expiresAt inFile with ⟨e, isEntry, keyEq, isDeleted⟩
  exact ⟨e, isEntry, keyEq, if_pos isDeleted⟩

end

end BriseDB.Index
