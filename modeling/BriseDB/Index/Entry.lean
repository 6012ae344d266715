import BriseDB.Base.File
import BriseDB.Types

/-!
# Entries of the index file

An entry links to the previous entry of its bucket and holds a key, the address
and expiry stored for it, and a tombstone flag.  `encodeIndexEntry` writes the
entry in one piece; `readEntryAt` reads 256 bytes ahead and takes a second read
only when the entry is longer.  The main result says that the two are inverse
wherever the entry lies in the file, on both read paths.
-/

namespace BriseDB.Index

open Bytes (putLE getLE)
open File (readAt)

/-- `encodeIndexEntry`.  The key length is stored in two bytes, whatever the
length of the key. -/
def encodeIndexEntry (next : Nat) (key : Key) (addr : NeedleAddr) (expiresAt : Int64)
    (deleted : Bool) : Bytes :=
  putLE 8 next ++ putLE 2 key.length ++ key ++
    putLE 4 addr.volumeID.toNat ++ putLE 8 addr.offset.toNat ++ putLE 8 addr.size.toNat ++
    putLE 8 expiresAt.toUInt64.toNat ++ [if deleted then 1 else 0]

/-- A decoded entry.  Offsets are kept as the 64-bit patterns stored on disk. -/
structure IdxEntry where
  next : Nat
  key : Key
  addr : NeedleAddr
  expiresAt : Int64
  deleted : Bool
  size : Nat
  deriving DecidableEq, Repr

/-- Bytes of an entry besides its key. -/
def entryOverhead : Nat :=
  8 + 2 + 4 + 8 + 8 + 8 + 1

/-- Number of bytes `readEntryAt` asks for in its first read. -/
def entryReadAheadSize : Nat :=
  256

/-- Decode a complete entry whose key has `keyLen` bytes. -/
def decodeEntry (full : Bytes) (next keyLen : Nat) : IdxEntry where
  next := next
  key := readAt full 10 keyLen
  addr :=
    { volumeID := UInt32.ofNat (getLE (readAt full (10 + keyLen) 4))
      offset := UInt64.ofNat (getLE (readAt full (14 + keyLen) 8))
      size := UInt64.ofNat (getLE (readAt full (22 + keyLen) 8)) }
  expiresAt := (UInt64.ofNat (getLE (readAt full (30 + keyLen) 8))).toInt64
  deleted := full.getD (38 + keyLen) 0 != 0
  size := entryOverhead + keyLen

/-- `readEntryAt` on the contents of the index file.  A position from `2 ^ 63`
on is a negative offset, which the file rejects. -/
def readEntryAt (contents : Bytes) (pos : Nat) : Except String IdxEntry :=
  let ahead := if pos < 2 ^ 63 then readAt contents pos entryReadAheadSize else []
  if ahead.length < 10 then
    let cause := if pos < 2 ^ 63 then "EOF" else "negative offset"
    .error s!"hash index read at {pos}: {cause}"
  else
    let next := getLE (readAt ahead 0 8)
    let keyLen := getLE (readAt ahead 8 2)
    let totalSize := entryOverhead + keyLen
    if totalSize ≤ ahead.length then
      .ok (decodeEntry (ahead.take totalSize) next keyLen)
    else
      let tail := readAt contents (pos + ahead.length) (totalSize - ahead.length)
      if tail.length < totalSize - ahead.length then
        .error s!"hash index read tail at {pos}: EOF"
      else
        .ok (decodeEntry (ahead ++ tail) next keyLen)

@[simp]
theorem length_encodeIndexEntry (next : Nat) (key : Key) (addr : NeedleAddr)
    (expiresAt : Int64) (deleted : Bool) :
    (encodeIndexEntry next key addr expiresAt deleted).length = entryOverhead + key.length := by
  simp [encodeIndexEntry, entryOverhead]
  omega

/-! ## Decoding what was encoded -/

/-- The fields of an encoded entry are read back as they were written. -/
theorem decodeEntry_encodeIndexEntry (next : Nat) (key : Key) (addr : NeedleAddr)
    (expiresAt : Int64) (deleted : Bool) :
    decodeEntry (encodeIndexEntry next key addr expiresAt deleted) next key.length =
      { next, key, addr, expiresAt, deleted, size := entryOverhead + key.length } := by
  have header : (putLE 8 next ++ putLE 2 key.length).length = 10 := by simp
  have keyEq : readAt (encodeIndexEntry next key addr expiresAt deleted) 10 key.length = key := by
    simp only [encodeIndexEntry, List.append_assoc]
    rw [← List.append_assoc]
    exact File.readAt_field header.symm rfl _
  have volumeEq : readAt (encodeIndexEntry next key addr expiresAt deleted) (10 + key.length) 4 =
      putLE 4 addr.volumeID.toNat := by
    simp only [encodeIndexEntry, List.append_assoc]
    rw [← List.append_assoc, ← List.append_assoc]
    exact File.readAt_field (by simp; omega) (by simp) _
  have offsetEq : readAt (encodeIndexEntry next key addr expiresAt deleted) (14 + key.length) 8 =
      putLE 8 addr.offset.toNat := by
    simp only [encodeIndexEntry, List.append_assoc]
    rw [← List.append_assoc, ← List.append_assoc, ← List.append_assoc]
    exact File.readAt_field (by simp; omega) (by simp) _
  have sizeEq : readAt (encodeIndexEntry next key addr expiresAt deleted) (22 + key.length) 8 =
      putLE 8 addr.size.toNat := by
    simp only [encodeIndexEntry, List.append_assoc]
    rw [← List.append_assoc, ← List.append_assoc, ← List.append_assoc, ← List.append_assoc]
    exact File.readAt_field (by simp; omega) (by simp) _
  have expiryEq : readAt (encodeIndexEntry next key addr expiresAt deleted) (30 + key.length) 8 =
      putLE 8 expiresAt.toUInt64.toNat := by
    simp only [encodeIndexEntry, List.append_assoc]
    rw [← List.append_assoc, ← List.append_assoc, ← List.append_assoc, ← List.append_assoc,
      ← List.append_assoc]
    exact File.readAt_field (by simp; omega) (by simp) _
  have flagEq : (encodeIndexEntry next key addr expiresAt deleted).getD (38 + key.length) 0 =
      if deleted then 1 else 0 := by
    have last : 38 + key.length - (putLE 8 next ++ putLE 2 key.length ++ key ++
        putLE 4 addr.volumeID.toNat ++ putLE 8 addr.offset.toNat ++ putLE 8 addr.size.toNat ++
        putLE 8 expiresAt.toUInt64.toNat).length = 0 := by
      simp
      omega
    unfold encodeIndexEntry
    rw [List.getD_eq_getElem?_getD, List.getElem?_append_right (by simp; omega), last]
    rfl
  have volumeFits : addr.volumeID.toNat < 256 ^ 4 := addr.volumeID.toNat_lt
  have offsetFits : addr.offset.toNat < 256 ^ 8 := addr.offset.toNat_lt
  have sizeFits : addr.size.toNat < 256 ^ 8 := addr.size.toNat_lt
  have expiryFits : expiresAt.toUInt64.toNat < 256 ^ 8 := expiresAt.toUInt64.toNat_lt
  unfold decodeEntry
  rw [keyEq, volumeEq, offsetEq, sizeEq, expiryEq, flagEq,
    Bytes.getLE_putLE_of_lt volumeFits, Bytes.getLE_putLE_of_lt offsetFits,
    Bytes.getLE_putLE_of_lt sizeFits, Bytes.getLE_putLE_of_lt expiryFits]
  cases deleted <;> simp

/-- An entry written anywhere in the file is read back as it was encoded,
whether it fits in the read-ahead or takes a second read. -/
theorem readEntryAt_encodeIndexEntry {before after : Bytes} {next : Nat} {key : Key}
    {addr : NeedleAddr} {expiresAt : Int64} {deleted : Bool}
    (inFile : before.length < 2 ^ 63) (nextFits : next < 2 ^ 64) (keyFits : key.length ≤ 65535) :
    readEntryAt (before ++ (encodeIndexEntry next key addr expiresAt deleted ++ after))
        before.length =
      .ok { next, key, addr, expiresAt, deleted, size := entryOverhead + key.length } := by
  set entry := encodeIndexEntry next key addr expiresAt deleted with entryDef
  set contents := before ++ (entry ++ after) with contentsDef
  have entryLength : entry.length = entryOverhead + key.length := length_encodeIndexEntry ..
  have overhead : entryOverhead = 39 := rfl
  set ahead := readAt contents before.length entryReadAheadSize with aheadDef
  have aheadEq : ahead = (entry ++ after).take entryReadAheadSize :=
    File.readAt_append_right' rfl _ _
  have aheadLength : ahead.length = min entryReadAheadSize (entry.length + after.length) := by
    rw [aheadEq, List.length_take, List.length_append]
  have readAhead : entryReadAheadSize = 256 := rfl
  have long : ¬ ahead.length < 10 := by omega
  -- both header fields lie within the first ten bytes, hence in the read-ahead
  have nextEq : getLE (readAt ahead 0 8) = next := by
    have bytes : readAt ahead 0 8 = putLE 8 next := by
      rw [aheadEq, readAt, List.drop_zero, List.take_take, Nat.min_eq_left (by omega),
        List.take_append_of_le_length (by omega), entryDef]
      simp only [encodeIndexEntry, List.append_assoc]
      rw [List.take_append_of_le_length (by simp), List.take_of_length_le (by simp)]
    rw [bytes, Bytes.getLE_putLE_of_lt (by omega)]
  have keyLenEq : getLE (readAt ahead 8 2) = key.length := by
    have bytes : readAt ahead 8 2 = putLE 2 key.length := by
      rw [aheadEq, entryDef]
      simp only [encodeIndexEntry, List.append_assoc, readAt, List.drop_take, List.take_take]
      rw [List.drop_append_of_le_length (by simp), List.drop_of_length_le (by simp),
        List.nil_append, List.take_append_of_le_length (by simp)]
      exact List.take_of_length_le (by simp [entryReadAheadSize])
    rw [bytes, Bytes.getLE_putLE_of_lt (by omega)]
  have wholeEntry : ∀ full, full = entry → decodeEntry full next key.length =
      { next, key, addr, expiresAt, deleted, size := entryOverhead + key.length } := by
    rintro full rfl
    exact decodeEntry_encodeIndexEntry ..
  unfold readEntryAt
  simp only [if_pos inFile, ← aheadDef, if_neg long, nextEq, keyLenEq]
  by_cases fast : entryOverhead + key.length ≤ ahead.length
  · rw [if_pos fast, wholeEntry]
    rw [aheadEq, List.take_take, Nat.min_eq_left (by omega), ← entryLength, List.take_left]
  · rw [if_neg fast]
    have tailEq : readAt contents (before.length + ahead.length)
        (entryOverhead + key.length - ahead.length) = entry.drop ahead.length := by
      rw [contentsDef, File.readAt_append_right, readAt,
        List.drop_append_of_le_length (by omega), List.take_append_of_le_length
          (by rw [List.length_drop]; omega),
          List.take_of_length_le (by rw [List.length_drop]; omega)]
    have aheadPrefix : ahead = entry.take ahead.length := by
      have short : entryReadAheadSize ≤ entry.length := by omega
      have lengthEq : ahead.length = entryReadAheadSize := by omega
      rw [lengthEq, aheadEq, List.take_append_of_le_length short]
    have complete : ¬ (entry.drop ahead.length).length <
        entryOverhead + key.length - ahead.length := by
      rw [List.length_drop]
      omega
    rw [tailEq, if_neg complete, wholeEntry]
    nth_rewrite 1 [aheadPrefix]
    exact List.take_append_drop ahead.length entry

/-- The round trip in the types of the source: `next` is a signed offset and the size is that
of the encoding. -/
theorem readEntryAt_written (before after : Bytes) (next : Int64) (key : Key) (addr : NeedleAddr)
    (expiresAt : Int64) (deleted : Bool) (inFile : before.length < 2 ^ 63)
    (keyFits : key.length ≤ 65535) :
    readEntryAt (before ++
        (encodeIndexEntry next.toUInt64.toNat key addr expiresAt deleted ++ after)) before.length =
      .ok
        { next := next.toUInt64.toNat
          key, addr, expiresAt, deleted
          size := (encodeIndexEntry next.toUInt64.toNat key addr expiresAt deleted).length } := by
  rw [readEntryAt_encodeIndexEntry inFile next.toUInt64.toNat_lt keyFits, length_encodeIndexEntry]

/-- A tombstone at the end of the file within the read-ahead, and an entry that takes a second
read with bytes behind it. -/
theorem readEntryAt_written_bothReads :
    readEntryAt ([1, 2] ++
        (encodeIndexEntry (-1 : Int64).toUInt64.toNat [107] ⟨1, 2, 3⟩ (-7) true ++ [])) 2 =
      .ok
        { next := (-1 : Int64).toUInt64.toNat
          key := [107], addr := ⟨1, 2, 3⟩, expiresAt := -7, deleted := true
          size := (encodeIndexEntry (-1 : Int64).toUInt64.toNat [107] ⟨1, 2, 3⟩ (-7)
            true).length } ∧
    readEntryAt ([] ++ (encodeIndexEntry (64 : Int64).toUInt64.toNat (List.replicate 300 9)
        ⟨1, 2, 3⟩ 0 false ++ [5])) 0 =
      .ok
        { next := (64 : Int64).toUInt64.toNat
          key := List.replicate 300 9, addr := ⟨1, 2, 3⟩, expiresAt := 0, deleted := false
          size := (encodeIndexEntry (64 : Int64).toUInt64.toNat (List.replicate 300 9)
            ⟨1, 2, 3⟩ 0 false).length } :=
  ⟨readEntryAt_written [1, 2] [] (-1) [107] ⟨1, 2, 3⟩ (-7) true (by decide) (by decide),
    readEntryAt_written [] [5] 64 (List.replicate 300 9) ⟨1, 2, 3⟩ 0 false (by decide)
      (by rw [List.length_replicate]; decide)⟩

end BriseDB.Index
