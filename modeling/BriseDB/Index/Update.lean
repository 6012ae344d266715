import BriseDB.Index.Layout

/-!
# Updates keep the layout

`Set` and `Delete` put one record in front of the log, `Close` stores the entry
count in the header, and `openHashIndex` recovers the whole record from the
file.
-/

namespace BriseDB.Index

open Bytes (putLE getLE)
open File (readAt)

variable {room : Prop}

/-! ## Writing to the file -/

theorem writeFile_returns {hi : HashIndex} {offset : Nat} {data : Bytes}
    {post : Unit → HashIndex → Prop} (roomy : room → offset + data.length ≤ File.maxSize)
    (holds : offset + data.length ≤ File.maxSize →
      post () { hi with f := File.writeAt hi.f offset data }) :
    (writeFile offset data).Returns room hi post := by
  unfold writeFile
  refine .bind_state (File.bind_write roomy fun fits => .bind_put ?_)
  exact .pure (holds fits)

/-- The bucket table around one slot. -/
theorem tableBytes_split {buckets : List Nat} {slot : Nat} (inRange : slot < buckets.length)
    (value : Nat) :
    tableBytes (buckets.set slot value) =
      tableBytes (buckets.take slot) ++
        (putLE 8 value ++ tableBytes (buckets.drop (slot + 1))) := by
  rw [List.set_eq_take_append_cons_drop, if_pos inRange]
  simp [tableBytes]

theorem tableBytes_get {buckets : List Nat} {slot : Nat} (inRange : slot < buckets.length) :
    tableBytes buckets =
      tableBytes (buckets.take slot) ++
        (putLE 8 (buckets.getD slot 0) ++ tableBytes (buckets.drop (slot + 1))) := by
  have same : buckets.set slot (buckets.getD slot 0) = buckets := by
    rw [List.getD_eq_getElem?_getD, List.getElem?_eq_getElem inRange, Option.getD_some,
      List.set_getElem_self]
  rw [← tableBytes_split inRange, same]

/-- Overwriting one slot of the table in the file. -/
theorem writeAt_slot {header rest : Bytes} {buckets : List Nat} {slot : Nat}
    (headerLength : header.length = hiHeaderSize) (inRange : slot < buckets.length) (value : Nat) :
    File.writeAt (header ++ (tableBytes buckets ++ rest)) (hiHeaderSize + slot * 8)
      (putLE 8 value) =
      header ++ (tableBytes (buckets.set slot value) ++ rest) := by
  have start : hiHeaderSize + slot * 8 = (header ++ tableBytes (buckets.take slot)).length := by
    rw [List.length_append, headerLength, length_tableBytes, List.length_take,
      Nat.min_eq_left inRange.le]
  have before : header ++ (tableBytes buckets ++ rest) =
      (header ++ tableBytes (buckets.take slot)) ++
        (putLE 8 (buckets.getD slot 0) ++ (tableBytes (buckets.drop (slot + 1)) ++ rest)) := by
    rw [tableBytes_get inRange]
    simp
  rw [before, File.writeAt_middle start (by simp), tableBytes_split inRange]
  simp

/-! ## Appending a record -/

/-- The counter is far from overflowing: the file holds at least 39 bytes for
every entry counted. -/
theorem Layout.toInt_add_one {hi : HashIndex} {stored : Int64} {log : List Record}
    (layout : Layout hi stored log) :
    (hi.entryCount + 1).toInt = hi.entryCount.toInt + 1 := by
  have nonneg := layout.count_nonneg
  have le := layout.count_le
  have size := length_le_span log
  have total := layout.length_eq
  have within := layout.within
  unfold File.maxSize at within
  rw [Int64.toInt_add, Int64.toInt_one, Int.bmod_eq_of_le (by omega) (by omega)]

/-- The record that `Set` or `Delete` appends. -/
def newRecord (count : Nat) (log : List Record) (key : Key) (addr : NeedleAddr)
    (expiresAt : Int64) (deleted : Bool) : Record where
  next := headOf count ((fnv64a key).toNat % count) log
  key := key
  addr := addr
  expiresAt := expiresAt
  deleted := deleted

section

variable {hi : HashIndex} {stored : Int64} {log : List Record} {key : Key} {addr : NeedleAddr}
  {expiresAt : Int64} {deleted : Bool}

/-- After an append the buckets still point to the newest records. -/
theorem heads_append (layout : Layout hi stored log) (slot : Nat) (slotLt : slot < hi.bucketCount) :
    (hi.buckets.set ((fnv64a key).toNat % hi.bucketCount) hi.writePos).getD slot 0 =
      headOf hi.bucketCount slot
        (newRecord hi.bucketCount log key addr expiresAt deleted :: log) := by
  have position : hi.writePos = dataStart hi.bucketCount + Chain.span Record.size log := by
    rw [layout.writePos_eq, layout.length_eq]
  have inRange : slot < hi.buckets.length := layout.buckets_length ▸ slotLt
  by_cases same : (fnv64a key).toNat % hi.bucketCount = slot
  · rw [same, List.getD_eq_getElem?_getD, List.getElem?_set_self inRange, position]
    simp [headOf, Chain.head, newRecord, Record.bucket, same]
  · rw [List.getD_eq_getElem?_getD, List.getElem?_set_ne same, ← List.getD_eq_getElem?_getD,
      layout.heads slot slotLt]
    simp [headOf, Chain.head, newRecord, Record.bucket, same]

/-- The in-memory fields fit the file, whatever the file holds. -/
structure Usable (hi : HashIndex) : Prop where
  bucketCount_pos : 0 < hi.bucketCount
  bucketBase_eq : hi.bucketBase = hiHeaderSize
  buckets_length : hi.buckets.length = hi.bucketCount
  writePos_eq : hi.writePos = hi.f.length
  table : dataStart hi.bucketCount ≤ hi.f.length
  within : hi.f.length ≤ File.maxSize
  heads_fit : ∀ slot < hi.bucketCount, hi.buckets.getD slot 0 < 2 ^ 63

theorem Layout.usable (layout : Layout hi stored log) : Usable hi where
  bucketCount_pos := layout.bucketCount_pos
  bucketBase_eq := layout.bucketBase_eq
  buckets_length := layout.buckets_length
  writePos_eq := layout.writePos_eq
  table := layout.length_eq ▸ Nat.le_add_right _ _
  within := layout.within
  heads_fit slot slotLt := by
    rw [layout.heads slot slotLt]
    exact @Layout.headOf_lt _ _ _ layout [] log slot rfl

theorem Usable.hashSlot_eq (usable : Usable hi) (key : Key) :
    hashSlot hi key = .ok ((fnv64a key).toNat % hi.bucketCount) := by
  rw [hashSlot, if_neg (Nat.pos_iff_ne_zero.mp usable.bucketCount_pos)]

/-- The pointer of a bucket is inside the file. -/
theorem Usable.slot_inside (usable : Usable hi) {slot : Nat} (slotLt : slot < hi.bucketCount)
    (position : Nat) : hi.bucketBase + slot * 8 + (putLE 8 position).length ≤ hi.f.length := by
  have table := usable.table
  rw [usable.bucketBase_eq, Bytes.length_putLE]
  unfold dataStart at table
  omega

/-- An index with an entry its file has no pointer to. -/
def unlinked (hi : HashIndex) (slot : Nat) (entry : Bytes) (entryCount : Int64) : HashIndex :=
  { hi with
    f := hi.f ++ entry
    writePos := hi.writePos + entry.length
    entryCount := entryCount
    buckets := hi.buckets.set slot hi.writePos }

/-- What appending an entry does to the fields of the index, whatever the length of
the key. -/
def appended (hi : HashIndex) (slot : Nat) (entry : Bytes) (entryCount : Int64) : HashIndex :=
  { hi with
    f := File.writeAt (hi.f ++ entry) (hi.bucketBase + slot * 8) (putLE 8 hi.writePos)
    writePos := hi.writePos + entry.length
    entryCount := entryCount
    buckets := hi.buckets.set slot hi.writePos }

theorem appendEntry_appends (usable : Usable hi)
    (roomy : room → hi.f.length + (entryOverhead + key.length) ≤ File.maxSize)
    (context : String) (count : Int64 → Int64) :
    (appendEntry context key addr expiresAt deleted count).Returns room hi fun _ next =>
      next = appended hi ((fnv64a key).toNat % hi.bucketCount)
          (encodeIndexEntry (hi.buckets.getD ((fnv64a key).toNat % hi.bucketCount) 0) key addr
            expiresAt deleted) (count hi.entryCount) ∧
        hi.writePos + (entryOverhead + key.length) ≤ File.maxSize := by
  set slot := (fnv64a key).toNat % hi.bucketCount with slotDef
  have slotLt : slot < hi.bucketCount := Nat.mod_lt _ usable.bucketCount_pos
  set entry := encodeIndexEntry (hi.buckets.getD slot 0) key addr expiresAt deleted with entryDef
  have entryLength : entry.length = entryOverhead + key.length := length_encodeIndexEntry ..
  unfold appendEntry
  refine .bind_ask (usable.hashSlot_eq key) (.bind_state ?_)
  simp only [← slotDef, ← entryDef]
  refine .through (fun _ state =>
    state = { hi with f := hi.f ++ entry } ∧ hi.writePos + entry.length ≤ File.maxSize) ?_ ?_
  · refine .wrap (writeFile_returns ?_ fun fits => ⟨?_, fits⟩)
    · rw [usable.writePos_eq, entryLength]
      exact roomy
    · rw [File.writeAt_end usable.writePos_eq]
  rintro _ _ ⟨rfl, fits⟩
  refine .bind_modify ?_
  unfold writeBucketFile
  refine .bind_state (writeFile_returns (fun _ =>
    (usable.slot_inside slotLt _).trans usable.within) fun _ => ?_)
  exact ⟨rfl, entryLength ▸ fits⟩

theorem writeFile_complete {offset : Nat} {data : Bytes}
    (fits : offset + data.length ≤ File.maxSize) (hi : HashIndex) (rest : List Fault) :
    writeFile offset data hi (.complete :: rest) =
      ⟨.ok (), { hi with f := File.writeAt hi.f offset data }, rest, false⟩ := by
  unfold writeFile
  rw [Exec.bind_state_apply, Exec.bind_of_ok (File.write_complete fits (by simp) hi)]
  rfl

/-- A write of which nothing gets into the file. -/
theorem writeFile_refused {offset : Nat} {data : Bytes}
    (fits : offset + data.length ≤ File.maxSize) (hi : HashIndex) (rest : List Fault) :
    writeFile offset data hi (.cut 0 :: rest) = ⟨.err "input/output error", hi, rest, true⟩ := by
  have written : File.write hi.f offset data hi (.cut 0 :: rest) =
      ⟨.ok (hi.f, some "input/output error"), hi, rest, true⟩ := by
    rw [File.write, if_pos fits]
    rfl
  unfold writeFile
  rw [Exec.bind_state_apply, Exec.bind_of_value written]
  rfl

/-- What an append does when its entry is in the file. -/
theorem appendEntry_written (usable : Usable hi)
    (roomy : hi.f.length + (entryOverhead + key.length) ≤ File.maxSize) (context : String)
    (count : Int64 → Int64) (later : List Fault) :
    appendEntry context key addr expiresAt deleted count hi (.complete :: later) =
      writeFile (hi.bucketBase + (fnv64a key).toNat % hi.bucketCount * 8) (putLE 8 hi.writePos)
        (unlinked hi ((fnv64a key).toNat % hi.bucketCount)
          (encodeIndexEntry (hi.buckets.getD ((fnv64a key).toNat % hi.bucketCount) 0) key addr
            expiresAt deleted) (count hi.entryCount)) later := by
  set slot := (fnv64a key).toNat % hi.bucketCount with slotDef
  have entryFits : hi.writePos + (encodeIndexEntry (hi.buckets.getD slot 0) key addr expiresAt
      deleted).length ≤ File.maxSize := by
    rw [usable.writePos_eq, length_encodeIndexEntry]
    exact roomy
  have asked : Exec.ask (fun hi => hashSlot hi key) hi (.complete :: later) =
      ⟨.ok slot, hi, .complete :: later, false⟩ := by
    simp only [Exec.ask, usable.hashSlot_eq, ← slotDef]
  unfold appendEntry
  rw [Exec.bind_of_ok asked, Exec.bind_state_apply,
    Exec.bind_of_ok (Exec.wrap_of_ok context (writeFile_complete entryFits hi _)),
    File.writeAt_end usable.writePos_eq]
  rfl

/-- Both writes of an entry are carried out. -/
theorem appendEntry_complete (usable : Usable hi)
    (roomy : hi.f.length + (entryOverhead + key.length) ≤ File.maxSize) (context : String)
    (count : Int64 → Int64) (rest : List Fault) :
    appendEntry context key addr expiresAt deleted count hi (.complete :: .complete :: rest) =
      ⟨.ok (), appended hi ((fnv64a key).toNat % hi.bucketCount)
        (encodeIndexEntry (hi.buckets.getD ((fnv64a key).toNat % hi.bucketCount) 0) key addr
          expiresAt deleted) (count hi.entryCount), rest, false⟩ := by
  rw [appendEntry_written usable roomy]
  exact writeFile_complete
    ((usable.slot_inside (Nat.mod_lt _ usable.bucketCount_pos) _).trans usable.within) _ rest

/-- The entry is written, and nothing of the pointer to it. -/
theorem appendEntry_unlinked (usable : Usable hi)
    (roomy : hi.f.length + (entryOverhead + key.length) ≤ File.maxSize) (context : String)
    (count : Int64 → Int64) (rest : List Fault) :
    appendEntry context key addr expiresAt deleted count hi (.complete :: .cut 0 :: rest) =
      ⟨.err "input/output error", unlinked hi ((fnv64a key).toNat % hi.bucketCount)
        (encodeIndexEntry (hi.buckets.getD ((fnv64a key).toNat % hi.bucketCount) 0) key addr
          expiresAt deleted) (count hi.entryCount), rest, true⟩ := by
  rw [appendEntry_written usable roomy]
  exact writeFile_refused
    ((usable.slot_inside (Nat.mod_lt _ usable.bucketCount_pos) _).trans usable.within) _ rest

/-- Nothing of an entry gets into the file. -/
theorem appendEntry_refused (usable : Usable hi)
    (roomy : hi.f.length + (entryOverhead + key.length) ≤ File.maxSize) (context : String)
    (count : Int64 → Int64) (rest : List Fault) :
    appendEntry context key addr expiresAt deleted count hi (.cut 0 :: rest) =
      ⟨.err (s!"{context}: " ++ "input/output error"), hi, rest, true⟩ := by
  set slot := (fnv64a key).toNat % hi.bucketCount with slotDef
  have entryFits : hi.writePos + (encodeIndexEntry (hi.buckets.getD slot 0) key addr expiresAt
      deleted).length ≤ File.maxSize := by
    rw [usable.writePos_eq, length_encodeIndexEntry]
    exact roomy
  have asked : Exec.ask (fun hi => hashSlot hi key) hi (.cut 0 :: rest) =
      ⟨.ok slot, hi, .cut 0 :: rest, false⟩ := by
    simp only [Exec.ask, usable.hashSlot_eq, ← slotDef]
  unfold appendEntry
  rw [Exec.bind_of_ok asked, Exec.bind_state_apply,
    Exec.bind_of_err (Exec.wrap_of_err context (writeFile_refused entryFits hi rest))]
  rfl

/-- An index stays usable when an entry is appended, and the entry is at the end of its
file. -/
theorem Usable.appended (usable : Usable hi) {slot : Nat} (slotLt : slot < hi.bucketCount)
    {entry : Bytes} (fits : hi.writePos + entry.length ≤ File.maxSize) (entryCount : Int64) :
    Usable (appended hi slot entry entryCount) ∧
      ∃ before, before.length = hi.f.length ∧
        (appended hi slot entry entryCount).f = before ++ entry := by
  have inside := usable.slot_inside slotLt hi.writePos
  have contents : (Index.appended hi slot entry entryCount).f =
      File.writeAt hi.f (hi.bucketBase + slot * 8) (putLE 8 hi.writePos) ++ entry :=
    File.writeAt_append_left inside entry
  have sameLength := File.length_writeAt_inside inside
  have newLength : (Index.appended hi slot entry entryCount).f.length =
      hi.writePos + entry.length := by
    rw [contents, List.length_append, sameLength, usable.writePos_eq]
  refine ⟨?_, _, sameLength, contents⟩
  exact
    { bucketCount_pos := usable.bucketCount_pos
      bucketBase_eq := usable.bucketBase_eq
      buckets_length := by simp [Index.appended, usable.buckets_length]
      writePos_eq := newLength.symm
      table := by
        rw [newLength, usable.writePos_eq]
        exact usable.table.trans (Nat.le_add_right _ _)
      within := newLength.trans_le fits
      heads_fit := by
        intro other otherLt
        change (hi.buckets.set slot hi.writePos).getD other 0 < 2 ^ 63
        by_cases same : slot = other
        · subst same
          rw [List.getD_eq_getElem?_getD,
            List.getElem?_set_self (usable.buckets_length ▸ slotLt), Option.getD_some]
          unfold File.maxSize at fits
          omega
        · rw [List.getD_eq_getElem?_getD, List.getElem?_set_ne same, ← List.getD_eq_getElem?_getD]
          exact usable.heads_fit other otherLt }

/-- The new entry is the newest record. -/
theorem Layout.appended (layout : Layout hi stored log) (keyFits : key.length ≤ 65535)
    (fits : hi.writePos + (entryOverhead + key.length) ≤ File.maxSize) {newCount : Int64}
    (nonneg : 0 ≤ newCount.toInt) (le : newCount.toInt ≤ log.length + 1) :
    Layout (Index.appended hi ((fnv64a key).toNat % hi.bucketCount)
        (encodeIndexEntry (hi.buckets.getD ((fnv64a key).toNat % hi.bucketCount) 0) key addr
          expiresAt deleted) newCount)
      stored (newRecord hi.bucketCount log key addr expiresAt deleted :: log) := by
  set slot := (fnv64a key).toNat % hi.bucketCount with slotDef
  have slotLt : slot < hi.bucketCount := Nat.mod_lt _ layout.bucketCount_pos
  have inRange : slot < hi.buckets.length := layout.buckets_length ▸ slotLt
  set record := newRecord hi.bucketCount log key addr expiresAt deleted with recordDef
  have entryEq : encodeIndexEntry (hi.buckets.getD slot 0) key addr expiresAt deleted =
      record.encode := by
    rw [layout.heads slot slotLt]
    rfl
  rw [entryEq]
  have contents : File.writeAt (hi.f ++ record.encode) (hi.bucketBase + slot * 8)
      (putLE 8 hi.writePos) = encodeHeader hi.bucketCount hi.dataBase stored ++
        (tableBytes (hi.buckets.set slot hi.writePos) ++ dataBytes (record :: log)) := by
    have grown : hi.f ++ record.encode = encodeHeader hi.bucketCount hi.dataBase stored ++
        (tableBytes hi.buckets ++ dataBytes (record :: log)) := by
      rw [layout.contents_eq, dataBytes]
      simp
    rw [grown, layout.bucketBase_eq, writeAt_slot (length_encodeHeader ..) inRange]
  have entryFits : hi.writePos + record.encode.length ≤ File.maxSize := by
    rw [record.length_encode]
    exact fits
  have usable := (layout.usable.appended slotLt entryFits newCount).1
  exact
    { bucketCount_pos := layout.bucketCount_pos
      bucketBase_eq := layout.bucketBase_eq
      dataBase_eq := layout.dataBase_eq
      buckets_length := usable.buckets_length
      contents_eq := contents
      writePos_eq := usable.writePos_eq
      within := usable.within
      heads := fun other otherLt => heads_append layout other otherLt
      linked := ⟨rfl, layout.linked⟩
      keys_fit := by
        intro other mem
        rcases List.mem_cons.mp mem with rfl | mem
        · exact keyFits
        · exact layout.keys_fit other mem
      count_nonneg := nonneg
      count_le := by simpa [Index.appended] using le }

/-- Appending puts one record in front of the log and leaves the stored count
and the temporary file alone. -/
theorem appendEntry_returns (layout : Layout hi stored log) (keyFits : key.length ≤ 65535)
    (roomy : room → hi.f.length + (entryOverhead + key.length) ≤ File.maxSize)
    (context : String) {count : Int64 → Int64} (nonneg : 0 ≤ (count hi.entryCount).toInt)
    (le : (count hi.entryCount).toInt ≤ log.length + 1) :
    (appendEntry context key addr expiresAt deleted count).Returns room hi fun _ next =>
      Layout next stored (newRecord hi.bucketCount log key addr expiresAt deleted :: log) ∧
        next.entryCount = count hi.entryCount ∧ next.tmp = hi.tmp ∧
        next.bucketCount = hi.bucketCount := by
  refine .mono (appendEntry_appends layout.usable roomy context count) ?_
  rintro _ next ⟨rfl, fits⟩
  exact ⟨layout.appended keyFits fits nonneg le, rfl, rfl, rfl⟩

/-- The counter of `Delete` never drops below zero. -/
theorem toInt_deleted {count : Int64} (nonneg : 0 ≤ count.toInt) :
    (if 0 < count then count - 1 else count).toInt = max 0 (count.toInt - 1) := by
  have upper := count.toInt_lt
  by_cases positive : 0 < count
  · rw [if_pos positive, Int64.toInt_sub, Int64.toInt_one]
    rw [Int64.lt_iff_toInt_lt, Int64.toInt_zero] at positive
    rw [Int.bmod_eq_of_le (by omega) (by omega)]
    omega
  · rw [if_neg positive]
    rw [Int64.lt_iff_toInt_lt, Int64.toInt_zero] at positive
    omega

/-- `Set` records the address and the expiry of the key. -/
theorem set_returns (layout : Layout hi stored log) (keyFits : key.length ≤ 65535)
    (roomy : room → hi.f.length + (entryOverhead + key.length) ≤ File.maxSize) :
    (set key addr expiresAt).Returns room hi fun _ next =>
      Layout next stored (newRecord hi.bucketCount log key addr expiresAt false :: log) ∧
        next.entryCount.toInt = hi.entryCount.toInt + 1 ∧ next.tmp = hi.tmp ∧
        next.bucketCount = hi.bucketCount := by
  have countEq : (hi.entryCount + 1).toInt = hi.entryCount.toInt + 1 :=
    layout.toInt_add_one
  have nonneg := layout.count_nonneg
  have le := layout.count_le
  refine .mono (appendEntry_returns layout keyFits roomy _ (by omega) (by omega)) ?_
  rintro _ next ⟨nextLayout, nextCount, rest⟩
  exact ⟨nextLayout, by rw [nextCount, countEq], rest⟩

/-- `Delete` records a tombstone and counts one entry less, but never below
zero. -/
theorem delete_returns (layout : Layout hi stored log) (keyFits : key.length ≤ 65535)
    (roomy : room → hi.f.length + (entryOverhead + key.length) ≤ File.maxSize) :
    (delete key).Returns room hi fun _ next =>
      Layout next stored (newRecord hi.bucketCount log key default 0 true :: log) ∧
        next.entryCount.toInt = max 0 (hi.entryCount.toInt - 1) ∧ next.tmp = hi.tmp ∧
        next.bucketCount = hi.bucketCount := by
  have nonneg := layout.count_nonneg
  have le := layout.count_le
  have countEq := toInt_deleted nonneg
  refine .mono (appendEntry_returns layout keyFits roomy _ (by omega) (by omega)) ?_
  rintro _ next ⟨nextLayout, nextCount, rest⟩
  exact ⟨nextLayout, by rw [nextCount, countEq], rest⟩

/-! ## Opening and closing -/

theorem readAt_encodeHeader_magic (count dataBase : Nat) (stored : Int64) :
    readAt (encodeHeader count dataBase stored) 0 8 = hiMagic := by
  unfold encodeHeader
  rw [File.readAt_append_left (by simp [hiMagic])]
  rfl

theorem readAt_encodeHeader_count (count dataBase : Nat) (stored : Int64) :
    readAt (encodeHeader count dataBase stored) 16 8 = putLE 8 count := by
  unfold encodeHeader
  rw [← List.append_assoc, ← List.append_assoc]
  exact File.readAt_field (by simp [hiMagic]) (by simp) _

theorem readAt_encodeHeader_dataBase (count dataBase : Nat) (stored : Int64) :
    readAt (encodeHeader count dataBase stored) 24 8 = putLE 8 dataBase := by
  unfold encodeHeader
  rw [← List.append_assoc, ← List.append_assoc, ← List.append_assoc]
  exact File.readAt_field (by simp [hiMagic]) (by simp) _

theorem readAt_encodeHeader_stored (count dataBase : Nat) (stored : Int64) :
    readAt (encodeHeader count dataBase stored) 32 8 = putLE 8 stored.toUInt64.toNat := by
  unfold encodeHeader
  rw [← List.append_assoc, ← List.append_assoc, ← List.append_assoc, ← List.append_assoc]
  exact File.readAt_field (by simp [hiMagic]) (by simp) _

/-- The bucket table is read back from the file as it was written. -/
theorem parseTable_tableBytes {buckets : List Nat} (fit : ∀ head ∈ buckets, head < 2 ^ 64) :
    parseTable buckets.length (tableBytes buckets) = buckets := by
  induction buckets with
  | nil => rfl
  | cons head rest ih =>
      have first : head < 256 ^ 8 := fit head List.mem_cons_self
      have bytes : tableBytes (head :: rest) = putLE 8 head ++ tableBytes rest := by
        simp [tableBytes]
      rw [List.length_cons, parseTable, bytes]
      rw [List.take_left' (Bytes.length_putLE ..), List.drop_left' (Bytes.length_putLE ..),
        Bytes.getLE_putLE_of_lt first, ih fun other mem => fit other (List.mem_cons_of_mem _ mem)]

/-- `loadBuckets` takes the bucket table from behind the header. -/
theorem loadBuckets_returns {header rest : Bytes}
    (contents : hi.f = header ++ rest) (headerLength : header.length = hiHeaderSize)
    (base : hi.bucketBase = hiHeaderSize) (countFits : hi.bucketCount * 8 ≤ File.maxSize)
    (long : hi.bucketCount * 8 ≤ rest.length) {post : Unit → HashIndex → Prop}
    (holds : post ()
      { hi with buckets := parseTable hi.bucketCount (rest.take (hi.bucketCount * 8)) }) :
    loadBuckets.Returns room hi post := by
  have tableEq : readAt hi.f hi.bucketBase (hi.bucketCount * 8) =
      rest.take (hi.bucketCount * 8) := by
    rw [contents, base]
    exact File.readAt_append_right' headerLength.symm _ _
  have tableLength : (rest.take (hi.bucketCount * 8)).length = hi.bucketCount * 8 := by
    rw [List.length_take, Nat.min_eq_left long]
  unfold loadBuckets
  refine .bind_state ?_
  simp only [if_neg (Nat.not_lt.mpr countFits), tableEq, tableLength, lt_irrefl, if_false]
  exact .put holds

/-- `readHeader` takes its fields from an intact header. -/
theorem readHeader_eq {count dataBase : Nat} {rest : Bytes}
    (contents : hi.f = encodeHeader count dataBase stored ++ rest) (countFits : count < 2 ^ 64)
    (faults : List Fault) :
    readHeader hi faults =
      ⟨.ok (), { hi with
        bucketCount := count
        bucketBase := hiHeaderSize
        dataBase := getLE (putLE 8 dataBase)
        entryCount := stored }, faults, false⟩ := by
  have headerEq : readAt hi.f 0 hiHeaderSize = encodeHeader count dataBase stored := by
    rw [contents, File.readAt_append_left (by simp), readAt, List.drop_zero,
      List.take_of_length_le (by simp)]
  have countEq : getLE (putLE 8 count) = count := Bytes.getLE_putLE_of_lt countFits
  have storedEq : getLE (putLE 8 stored.toUInt64.toNat) = stored.toUInt64.toNat :=
    Bytes.getLE_putLE_of_lt stored.toUInt64.toNat_lt
  unfold readHeader
  rw [Exec.bind_state_apply]
  simp only [headerEq, length_encodeHeader, lt_irrefl, if_false, readAt_encodeHeader_magic, ne_eq,
    not_true_eq_false, readAt_encodeHeader_count, readAt_encodeHeader_dataBase,
    readAt_encodeHeader_stored, countEq, storedEq, UInt64.ofNat_toNat, Int64.toInt64_toUInt64]
  rfl

/-- Opening a file with an intact header and a complete bucket table takes the
whole record from the file. -/
theorem openHashIndex_existing {count dataBase : Nat}
    {rest : Bytes} (contents : hi.f = encodeHeader count dataBase stored ++ rest)
    (countFits : count * 8 ≤ File.maxSize) (dataFits : dataBase < 2 ^ 64)
    (long : count * 8 ≤ rest.length) (bucketCount : UInt64) {post : Unit → HashIndex → Prop}
    (holds : post ()
      { hi with
        bucketCount := count
        bucketBase := hiHeaderSize
        dataBase := dataBase
        writePos := hi.f.length
        entryCount := stored
        buckets := parseTable count (rest.take (count * 8)) }) :
    (openHashIndex bucketCount).Returns room hi post := by
  have nonempty : hi.f ≠ [] := by
    intro empty
    have lengths := congrArg List.length contents
    rw [empty, List.length_append, length_encodeHeader, List.length_nil] at lengths
    unfold hiHeaderSize at lengths
    omega
  have countSmall : count < 2 ^ 64 := by
    unfold File.maxSize at countFits
    omega
  have reads : ∀ current : HashIndex, current.f = hi.f → ∀ faults, readHeader current faults =
      ⟨.ok (), { current with
        bucketCount := count
        bucketBase := hiHeaderSize
        dataBase := dataBase
        entryCount := stored }, faults, false⟩ := by
    intro current same faults
    rw [readHeader_eq (same.trans contents) countSmall, Bytes.getLE_putLE_of_lt dataFits]
  unfold openHashIndex
  refine .bind_modify (.bind_state ?_)
  simp only [if_neg nonempty]
  refine .through (fun _ state => state = { hi with
      bucketCount := count
      bucketBase := hiHeaderSize
      dataBase := dataBase
      writePos := hiHeaderSize +
        (if bucketCount = 0 then defaultBucketCount else bucketCount).toNat * 8
      entryCount := stored
      buckets := [] }) (.wrap (.of_eq (reads _ rfl) rfl)) ?_
  rintro _ _ rfl
  refine .bind_modify (.wrap ?_)
  refine loadBuckets_returns ?_ (length_encodeHeader count dataBase stored) rfl ?_ ?_ holds
  · exact contents
  · exact countFits
  · exact long

/-- Bucket pointers are offsets inside the file. -/
theorem Layout.buckets_fit
    (layout : Layout hi stored log) : ∀ head ∈ hi.buckets, head < 2 ^ 64 := by
  intro head mem
  obtain ⟨slot, slotLt, rfl⟩ := List.mem_iff_getElem.mp mem
  have headEq := layout.heads slot (layout.buckets_length ▸ slotLt)
  rw [List.getD_eq_getElem?_getD, List.getElem?_eq_getElem slotLt, Option.getD_some] at headEq
  have bound := layout.headOf_lt slot (show log = [] ++ log from rfl)
  omega

/-- The bucket table in memory is the one in the file. -/
theorem Layout.parseTable_eq (layout : Layout hi stored log) :
    parseTable hi.bucketCount
      ((tableBytes hi.buckets ++ dataBytes log).take (hi.bucketCount * 8)) = hi.buckets := by
  rw [← layout.buckets_length, List.take_left' (length_tableBytes _)]
  exact parseTable_tableBytes layout.buckets_fit

theorem Layout.count_fits (layout : Layout hi stored log) : hi.bucketCount * 8 ≤ File.maxSize := by
  have total := layout.length_eq
  have within := layout.within
  unfold dataStart at total
  omega

theorem Layout.table_long (layout : Layout hi stored log) :
    hi.bucketCount * 8 ≤ (tableBytes hi.buckets ++ dataBytes log).length := by
  rw [List.length_append, length_tableBytes, layout.buckets_length]
  omega

theorem loadBuckets_layout {hi source : HashIndex}
    (layout : Layout source stored log) (sameFile : hi.f = source.f)
    (sameCount : hi.bucketCount = source.bucketCount) (base : hi.bucketBase = hiHeaderSize) :
    loadBuckets.Returns room hi fun _ next => next = { hi with buckets := source.buckets } := by
  refine loadBuckets_returns (sameFile.trans layout.contents_eq) (length_encodeHeader ..) base
    (sameCount ▸ layout.count_fits) (sameCount ▸ layout.table_long) ?_
  rw [sameCount, layout.parseTable_eq]

/-- Opening the file of an index that was laid out properly gives that index
back, with the entry count the header stores. -/
theorem openHashIndex_layout {file : HashIndex}
    (layout : Layout hi stored log) (sameFile : file.f = hi.f) (nonneg : 0 ≤ stored.toInt)
    (le : stored.toInt ≤ log.length) (bucketCount : UInt64) :
    (openHashIndex bucketCount).Returns room file fun _ next =>
      Layout next stored log ∧ next.entryCount = stored ∧ next.tmp = file.tmp ∧
        next.bucketCount = hi.bucketCount ∧ next.buckets = hi.buckets := by
  have dataFits : hi.dataBase < 2 ^ 64 := by
    have fits := layout.count_fits
    rw [layout.dataBase_eq]
    unfold File.maxSize at fits
    unfold dataStart hiHeaderSize
    omega
  refine openHashIndex_existing (sameFile.trans layout.contents_eq) layout.count_fits dataFits
    layout.table_long bucketCount ?_
  rw [layout.parseTable_eq]
  refine ⟨?_, rfl, rfl, rfl, rfl⟩
  exact
    { bucketCount_pos := layout.bucketCount_pos
      bucketBase_eq := rfl
      dataBase_eq := layout.dataBase_eq
      buckets_length := layout.buckets_length
      contents_eq := sameFile.trans layout.contents_eq
      writePos_eq := rfl
      within := sameFile ▸ layout.within
      heads := layout.heads
      linked := layout.linked
      keys_fit := layout.keys_fit
      count_nonneg := nonneg
      count_le := le }

/-- The entry count stored in the header may be another one. -/
theorem Layout.withStored (layout : Layout hi stored log) (newStored : Int64) :
    Layout { hi with f := encodeHeader hi.bucketCount hi.dataBase newStored ++
      (tableBytes hi.buckets ++ dataBytes log) } newStored log := by
  have sameLength : (encodeHeader hi.bucketCount hi.dataBase newStored ++
      (tableBytes hi.buckets ++ dataBytes log)).length = hi.f.length := by
    rw [layout.contents_eq]
    simp
  exact
    { bucketCount_pos := layout.bucketCount_pos
      bucketBase_eq := layout.bucketBase_eq
      dataBase_eq := layout.dataBase_eq
      buckets_length := layout.buckets_length
      contents_eq := rfl
      writePos_eq := layout.writePos_eq.trans sameLength.symm
      within := sameLength.trans_le layout.within
      heads := layout.heads
      linked := layout.linked
      keys_fit := layout.keys_fit
      count_nonneg := layout.count_nonneg
      count_le := layout.count_le }

/-- `Close` changes only the entry count stored in the header. -/
theorem close_returns (layout : Layout hi stored log) :
    close.Returns room hi fun _ next =>
      Layout next hi.entryCount log ∧ next.entryCount = hi.entryCount ∧ next.tmp = hi.tmp ∧
        next.bucketCount = hi.bucketCount := by
  set header := encodeHeader hi.bucketCount hi.dataBase hi.entryCount with headerDef
  have headerLength : header.length = hiHeaderSize := length_encodeHeader ..
  have contents : File.writeAt hi.f 0 header =
      header ++ (tableBytes hi.buckets ++ dataBytes log) := by
    rw [layout.contents_eq]
    exact File.writeAt_middle (show 0 = ([] : Bytes).length from rfl)
      (headerLength.trans (length_encodeHeader ..).symm)
  have headerFits : 0 + header.length ≤ File.maxSize := by
    rw [headerLength]
    decide
  unfold close
  refine .bind_state ?_
  refine .through (fun result state => ∃ value, result = .ok value ∧
    state = { hi with f := File.writeAt hi.f 0 header })
    (.attempt (writeFile_returns (fun _ => headerFits) fun _ => rfl)) ?_
  rintro _ _ ⟨_, _, rfl⟩
  rw [contents]
  exact .pure ⟨layout.withStored _, rfl, rfl, rfl⟩

/-- A freshly zeroed bucket table. -/
theorem tableBytes_replicate (count : Nat) :
    tableBytes (List.replicate count 0) = List.replicate (count * 8) 0 := by
  induction count with
  | zero => rfl
  | succ count ih =>
      have slot : putLE 8 0 = List.replicate 8 0 := by decide
      rw [List.replicate_succ, tableBytes, List.flatMap_cons]
      change putLE 8 0 ++ tableBytes (List.replicate count 0) = _
      rw [ih, slot, List.replicate_append_replicate, Nat.succ_mul, Nat.add_comm]

/-- Opening an empty file creates an empty index. -/
theorem openHashIndex_fresh (empty : hi.f = []) (bucketCount : UInt64)
    (roomy : room → dataStart (if bucketCount = 0 then defaultBucketCount
      else bucketCount).toNat ≤ File.maxSize) :
    (openHashIndex bucketCount).Returns room hi fun _ next =>
      Layout next 0 [] ∧ next.entryCount = 0 ∧ next.tmp = hi.tmp ∧
        next.bucketCount =
          (if bucketCount = 0 then defaultBucketCount else bucketCount).toNat := by
  set count := (if bucketCount = 0 then defaultBucketCount else bucketCount).toNat with countDef
  have positive : 0 < count := by
    rw [countDef]
    split
    · decide
    · rename_i nonzero
      exact Nat.pos_of_ne_zero fun zero => nonzero (UInt64.toNat_inj.mp zero)
  set header := encodeHeader count (hiHeaderSize + count * 8) 0 with headerDef
  have headerLength : header.length = hiHeaderSize := length_encodeHeader ..
  have headerFits : 0 + header.length ≤ File.maxSize := by
    rw [headerLength]
    decide
  have tableRoom : room → hiHeaderSize + count * 8 ≤ File.maxSize := roomy
  unfold openHashIndex
  refine .bind_modify (.bind_state ?_)
  simp only [if_pos empty, ← countDef]
  refine .through (fun _ state => state = { hi with
      f := header ++ List.replicate (count * 8) 0
      bucketCount := count
      bucketBase := hiHeaderSize
      dataBase := hiHeaderSize + count * 8
      writePos := hiHeaderSize + count * 8
      entryCount := 0
      buckets := [] } ∧ hiHeaderSize + count * 8 ≤ File.maxSize) (.wrap ?_) ?_
  · unfold initFile
    refine .bind_state ?_
    refine .through (fun _ state => state = { hi with
        f := header
        bucketCount := count
        bucketBase := hiHeaderSize
        dataBase := hiHeaderSize + count * 8
        writePos := hiHeaderSize + count * 8
        entryCount := 0
        buckets := [] }) (writeFile_returns (fun _ => headerFits) fun _ => ?_) ?_
    · have written : File.writeAt [] 0 header = header :=
        File.writeAt_end (show 0 = ([] : Bytes).length from rfl) header
      simp only [empty, ← headerDef, written]
    · rintro _ _ rfl
      by_cases large : File.maxSize < hiHeaderSize + count * 8
      · simp only [if_pos large]
        exact .exhausted fun enough => absurd (tableRoom enough) (by omega)
      · simp only [if_neg large]
        refine writeFile_returns (by simpa using tableRoom) fun _ => ⟨?_, Nat.not_lt.mp large⟩
        simp only
        rw [File.writeAt_end headerLength.symm]
  · rintro _ _ ⟨rfl, fits⟩
    have zeroTable : parseTable count ((List.replicate (count * 8) 0).take (count * 8)) =
        List.replicate count 0 := by
      have back := @parseTable_tableBytes (List.replicate count 0) (by simp)
      rw [List.length_replicate, tableBytes_replicate] at back
      rw [List.take_of_length_le (by simp), back]
    refine .wrap (loadBuckets_returns rfl headerLength rfl (by simp only; omega) (by simp) ?_)
    simp only [zeroTable, and_true]
    exact
      { bucketCount_pos := positive
        bucketBase_eq := rfl
        dataBase_eq := rfl
        buckets_length := by simp
        contents_eq := by simp [dataBytes, tableBytes_replicate, headerDef]
        writePos_eq := by simp [headerLength]
        within := by simpa [headerLength] using fits
        heads := by
          intro slot slotLt
          simp [headOf, Chain.head, List.getD_eq_getElem?_getD, slotLt]
        linked := trivial
        keys_fit := by simp
        count_nonneg := by simp
        count_le := by simp }

end

end BriseDB.Index
