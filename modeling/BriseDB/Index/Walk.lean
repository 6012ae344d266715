import BriseDB.Index.Update

/-!
# Chains in a file that only grows

A reader of a chain holds an offset and reads one entry after the other.  What it
reads depends on the bytes from that offset on, up to the end of the entry, so
neither entries appended later nor changes of the bucket table matter to it.

`Walk contents base off entries` says that the chain from `off` consists of
`entries`, all of them behind `base`, and `Chains` gives one such walk for every
bucket of an index.  Nothing is said about the bytes between the entries: an entry
that was written in part, or that no bucket points to, is not in any chain.
-/

namespace BriseDB.Index

open Bytes (putLE getLE)
open File (readAt)

/-! ## Reading an entry -/

/-- The entry at the start of `bytes`, if it is complete. -/
def entryOf (bytes : Bytes) : Option IdxEntry :=
  let keyLen := getLE (readAt bytes 8 2)
  if entryOverhead + keyLen ≤ bytes.length then
    some (decodeEntry (bytes.take (entryOverhead + keyLen)) (getLE (readAt bytes 0 8)) keyLen)
  else none

/-- Bytes behind an entry do not matter. -/
theorem entryOf_append {bytes : Bytes} {e : IdxEntry} (isEntry : entryOf bytes = some e)
    (more : Bytes) : entryOf (bytes ++ more) = some e := by
  have overhead : entryOverhead = 39 := rfl
  unfold entryOf at isEntry
  by_cases whole : entryOverhead + getLE (readAt bytes 8 2) ≤ bytes.length
  · have lengthEq : readAt (bytes ++ more) 8 2 = readAt bytes 8 2 :=
      File.readAt_append_left (by omega)
    have nextEq : readAt (bytes ++ more) 0 8 = readAt bytes 0 8 :=
      File.readAt_append_left (by omega)
    simp only [if_pos whole] at isEntry
    unfold entryOf
    simp only [lengthEq, nextEq]
    rw [if_pos (whole.trans (by simp)), List.take_append_of_le_length whole]
    exact isEntry
  · simp only [if_neg whole] at isEntry
    cases isEntry

/-- `readEntryAt` finds the entry at the start of the bytes from its position on,
in one read or in two. -/
theorem readEntryAt_eq_ok {contents : Bytes} {pos : Nat} {e : IdxEntry} :
    readEntryAt contents pos = .ok e ↔ pos < 2 ^ 63 ∧ entryOf (contents.drop pos) = some e := by
  have overhead : entryOverhead = 39 := rfl
  have readAhead : entryReadAheadSize = 256 := rfl
  by_cases inFile : pos < 2 ^ 63
  · set bytes := contents.drop pos with bytesDef
    set ahead := readAt contents pos entryReadAheadSize with aheadDef
    have aheadEq : ahead = bytes.take entryReadAheadSize := rfl
    have aheadLength : ahead.length = min entryReadAheadSize bytes.length := by
      rw [aheadEq, List.length_take]
    rw [and_iff_right inFile]
    unfold readEntryAt entryOf
    simp only [if_pos inFile, ← aheadDef]
    by_cases short : ahead.length < 10
    · have notWhole : ¬ entryOverhead + getLE (readAt bytes 8 2) ≤ bytes.length := by omega
      rw [if_pos short, if_neg notWhole]
      simp
    · have lengthEq : readAt ahead 8 2 = readAt bytes 8 2 := by
        simp only [aheadEq, readAt, List.drop_take, List.take_take]
        rfl
      have nextEq : readAt ahead 0 8 = readAt bytes 0 8 := by
        simp only [aheadEq, readAt, List.drop_zero, List.take_take]
        rfl
      rw [if_neg short]
      simp only [lengthEq, nextEq]
      set total := entryOverhead + getLE (readAt bytes 8 2) with totalDef
      by_cases fast : total ≤ ahead.length
      · have whole : total ≤ bytes.length := by omega
        have sameBytes : ahead.take total = bytes.take total := by
          rw [aheadEq, List.take_take, Nat.min_eq_left (by omega)]
        rw [if_pos fast, if_pos whole, sameBytes]
        simp
      · have tailEq : readAt contents (pos + ahead.length) (total - ahead.length) =
            (bytes.drop ahead.length).take (total - ahead.length) := by
          rw [readAt, ← List.drop_drop]
        have tailLength : ((bytes.drop ahead.length).take (total - ahead.length)).length =
            min (total - ahead.length) (bytes.length - ahead.length) := by
          rw [List.length_take, List.length_drop]
        rw [if_neg fast, tailEq, tailLength]
        by_cases whole : total ≤ bytes.length
        · have sameBytes : ahead ++ (bytes.drop ahead.length).take (total - ahead.length) =
              bytes.take total := by
            have prefixEq : ahead = bytes.take ahead.length := by
              rw [aheadEq, List.length_take]
              rw [← List.take_take, List.take_length]
            nth_rewrite 1 [prefixEq]
            rw [← List.take_add]
            congr 1
            omega
          rw [if_neg (by omega), if_pos whole, sameBytes]
          simp
        · rw [if_pos (by omega), if_neg whole]
          simp
  · unfold readEntryAt
    simp only [if_neg inFile]
    rw [if_pos (by decide)]
    constructor
    · intro isOk
      cases isOk
    · exact fun both => absurd both.1 inFile

/-- An entry lies inside the file. -/
theorem lt_length_of_readEntryAt {contents : Bytes} {pos : Nat} {e : IdxEntry}
    (isEntry : readEntryAt contents pos = .ok e) : pos < contents.length := by
  have found := (readEntryAt_eq_ok.mp isEntry).2
  unfold entryOf at found
  by_contra beyond
  rw [List.drop_eq_nil_of_le (by omega)] at found
  simp [entryOverhead] at found

/-- The file has changed before `base` and behind its old end only. -/
def Grown (base : Nat) (contents other : Bytes) : Prop :=
  contents.drop base <+: other.drop base

theorem Grown.refl (base : Nat) (contents : Bytes) : Grown base contents contents :=
  List.prefix_rfl

theorem Grown.of_drop_eq {base : Nat} {contents other : Bytes}
    (same : other.drop base = contents.drop base) : Grown base contents other :=
  ⟨[], (List.append_nil _).trans same.symm⟩

theorem Grown.trans {base : Nat} {first second third : Bytes} (left : Grown base first second)
    (right : Grown base second third) : Grown base first third :=
  List.IsPrefix.trans left right

theorem Grown.append (base : Nat) (contents more : Bytes) :
    Grown base contents (contents ++ more) := by
  rw [Grown, List.drop_append]
  exact List.prefix_append ..

/-- A write before `base` leaves alone what is behind it. -/
theorem drop_writeAt {base offset : Nat} {contents data : Bytes}
    (inside : offset + data.length ≤ base) (long : base ≤ contents.length) :
    (File.writeAt contents offset data).drop base = contents.drop base := by
  have split := File.writeAt_append_left
    (show offset + data.length ≤ (contents.take base).length by rw [List.length_take]; omega)
    (contents.drop base)
  have sameLength := File.length_writeAt_inside
    (show offset + data.length ≤ (contents.take base).length by rw [List.length_take]; omega)
  rw [List.take_append_drop] at split
  have startLength : (File.writeAt (contents.take base) offset data).length = base := by
    rw [sameLength, List.length_take, Nat.min_eq_left long]
  rw [split, List.drop_left' startLength]

theorem Grown.writeAt {base offset : Nat} {contents data : Bytes}
    (inside : offset + data.length ≤ base) (long : base ≤ contents.length) :
    Grown base contents (File.writeAt contents offset data) :=
  .of_drop_eq (drop_writeAt inside long)

/-- What is behind a position inside the old file. -/
theorem Grown.drop {base pos : Nat} {contents other : Bytes} (grown : Grown base contents other)
    (behind : base ≤ pos) (inside : pos ≤ contents.length) :
    ∃ more, other.drop pos = contents.drop pos ++ more := by
  rcases grown with ⟨more, grownEq⟩
  have posEq : pos = base + (pos - base) := by omega
  refine ⟨more, ?_⟩
  rw [posEq, ← List.drop_drop, ← grownEq, ← List.drop_drop]
  exact List.drop_append_of_le_length (by rw [List.length_drop]; omega)

/-- A complete read gives the same bytes again. -/
theorem Grown.readAt {base pos count : Nat} {contents other : Bytes}
    (grown : Grown base contents other) (behind : base ≤ pos) (inside : pos ≤ contents.length)
    (full : (readAt contents pos count).length = count) :
    File.readAt other pos count = File.readAt contents pos count := by
  rcases grown.drop behind inside with ⟨more, restEq⟩
  rw [File.readAt, List.length_take] at full
  rw [File.readAt, restEq, List.take_append_of_le_length (by omega)]
  rfl

/-- An entry is read from a file that has grown as from the old one. -/
theorem Grown.readEntryAt {base pos : Nat} {contents other : Bytes} {e : IdxEntry}
    (grown : Grown base contents other) (behind : base ≤ pos)
    (isEntry : readEntryAt contents pos = .ok e) : Index.readEntryAt other pos = .ok e := by
  have inside := lt_length_of_readEntryAt isEntry
  rcases readEntryAt_eq_ok.mp isEntry with ⟨inFile, found⟩
  rcases grown.drop behind inside.le with ⟨more, restEq⟩
  exact readEntryAt_eq_ok.mpr ⟨inFile, restEq ▸ entryOf_append found more⟩

/-! ## Walks -/

/-- The chain from `off` has the given entries.  Links point backwards, so a chain
ends. -/
inductive Walk (contents : Bytes) (base : Nat) : Nat → List IdxEntry → Prop
  | done : Walk contents base 0 []
  | step {off : Nat} {e : IdxEntry} {rest : List IdxEntry} (positive : 0 < off)
      (behind : base ≤ off) (isEntry : readEntryAt contents off = .ok e)
      (backwards : e.next < off) (walk : Walk contents base e.next rest) :
      Walk contents base off (e :: rest)

/-- The entry that is appended for a key. -/
def newEntry (next : Nat) (key : Key) (addr : NeedleAddr) (expiresAt : Int64) (deleted : Bool) :
    IdxEntry :=
  ⟨next, key, addr, expiresAt, deleted, entryOverhead + key.length⟩

/-- What a chain says about a key. -/
def found (entries : List IdxEntry) (key : Key) : Option (NeedleAddr × Int64) :=
  (entries.find? fun e => e.key = key).bind fun e =>
    if e.deleted then none else some (e.addr, e.expiresAt)

theorem found_cons (e : IdxEntry) (rest : List IdxEntry) (key : Key) :
    found (e :: rest) key =
      if e.key = key then (if e.deleted then none else some (e.addr, e.expiresAt))
      else found rest key := by
  by_cases same : e.key = key <;> simp [found, same]

namespace Walk

variable {contents other : Bytes} {base off : Nat} {entries : List IdxEntry}

/-- A walk stays what it is when the file grows. -/
theorem grow (walk : Walk contents base off entries) (grown : Grown base contents other) :
    Walk other base off entries := by
  induction walk with
  | done => exact .done
  | step positive behind isEntry backwards _ ih =>
      exact .step positive behind (grown.readEntryAt behind isEntry) backwards ih

theorem length_le (walk : Walk contents base off entries) : entries.length ≤ off := by
  induction walk with
  | done => exact Nat.le_refl 0
  | step positive behind isEntry backwards _ ih =>
      rw [List.length_cons]
      omega

theorem off_lt (walk : Walk contents base off entries) (nonempty : 0 < contents.length) :
    off < contents.length := by
  cases walk with
  | done => exact nonempty
  | step _ _ isEntry _ _ => exact lt_length_of_readEntryAt isEntry

/-- An entry written at the end of the file links to a chain and extends it. -/
theorem extend (walk : Walk contents base off entries) (nonempty : 0 < contents.length)
    (behind : base ≤ contents.length) (within : contents.length ≤ File.maxSize) {key : Key}
    (keyFits : key.length ≤ 65535) (addr : NeedleAddr) (expiresAt : Int64) (deleted : Bool) :
    Walk (contents ++ encodeIndexEntry off key addr expiresAt deleted) base contents.length
      (newEntry off key addr expiresAt deleted :: entries) := by
  have backwards := walk.off_lt nonempty
  unfold File.maxSize at within
  refine .step nonempty behind ?_ backwards (walk.grow (.append _ _ _))
  have isEntry := @readEntryAt_encodeIndexEntry contents [] off key addr expiresAt deleted
    (by omega) (by omega) keyFits
  rwa [List.append_nil] at isEntry

/-- The loop of `Get` along a walk. -/
theorem loop_getStep {hi : HashIndex} (walk : Walk hi.f base off entries) (key : Key) {fuel : Nat}
    (enough : entries.length < fuel) :
    Res.loop (getStep hi key) fuel off = .ok (found entries key) := by
  induction walk generalizing fuel with
  | done =>
      cases fuel with
      | zero => omega
      | succ fuel => exact Res.loop_stop (by simp [getStep, found]) fuel
  | @step position e rest positive behind isEntry backwards _ ih =>
      have notEnd : position ≠ 0 := positive.ne'
      cases fuel with
      | zero => omega
      | succ fuel =>
          rw [found_cons]
          by_cases same : e.key = key
          · rw [if_pos same]
            exact Res.loop_stop (by simp [getStep, notEnd, isEntry, same]) fuel
          · have next : getStep hi key position = .ok (.inl e.next) := by
              simp [getStep, notEnd, isEntry, same]
            rw [if_neg same, Res.loop_continue next]
            exact ih (by rw [List.length_cons] at enough; omega)

end Walk

/-! ## All buckets -/

/-- `Get` along the walk from the bucket of its key. -/
theorem get_of_walk {hi : HashIndex} {base : Nat} {entries : List IdxEntry} {key : Key}
    (buckets : hi.bucketCount ≠ 0) (nonempty : 0 < hi.f.length)
    (walk : Walk hi.f base (hi.buckets.getD ((fnv64a key).toNat % hi.bucketCount) 0) entries) :
    get hi key = .ok (found entries key) := by
  rw [get, hashSlot, if_neg buckets, Res.ok_bind]
  refine walk.loop_getStep key ?_
  have length := walk.length_le
  have inside := walk.off_lt nonempty
  omega

theorem Usable.nonempty {hi : HashIndex} (usable : Usable hi) : 0 < hi.f.length := by
  have table := usable.table
  unfold dataStart hiHeaderSize at table
  omega

/-- Appending an entry leaves alone the data region. -/
theorem Usable.appended_grown {hi : HashIndex} (usable : Usable hi) {slot : Nat}
    (slotLt : slot < hi.bucketCount) (entry : Bytes) (entryCount : Int64) :
    Grown (dataStart hi.bucketCount) (hi.f ++ entry)
      (Index.appended hi slot entry entryCount).f := by
  have table := usable.table
  have long : dataStart hi.bucketCount ≤ (hi.f ++ entry).length := by
    rw [List.length_append]
    omega
  change Grown _ _ (File.writeAt (hi.f ++ entry) (hi.bucketBase + slot * 8)
    (putLE 8 hi.writePos))
  refine Grown.writeAt ?_ long
  rw [usable.bucketBase_eq, Bytes.length_putLE]
  unfold dataStart
  omega

/-- The chains of an index. -/
structure Chains (hi : HashIndex) (chain : Nat → List IdxEntry) : Prop where
  usable : Usable hi
  table : readAt hi.f hiHeaderSize (hi.bucketCount * 8) = tableBytes hi.buckets
  walks : ∀ slot < hi.bucketCount,
    Walk hi.f (dataStart hi.bucketCount) (hi.buckets.getD slot 0) (chain slot)
  placed : ∀ slot, ∀ e ∈ chain slot, (fnv64a e.key).toNat % hi.bucketCount = slot

namespace Chains

variable {hi : HashIndex} {chain : Nat → List IdxEntry}

theorem slot_lt (chains : Chains hi chain) (key : Key) :
    (fnv64a key).toNat % hi.bucketCount < hi.bucketCount :=
  Nat.mod_lt _ chains.usable.bucketCount_pos

/-- `Get` returns what the chain of the key's bucket says. -/
theorem get_eq (chains : Chains hi chain) (key : Key) :
    get hi key = .ok (found (chain ((fnv64a key).toNat % hi.bucketCount)) key) :=
  get_of_walk chains.usable.bucketCount_pos.ne' chains.usable.nonempty
    (chains.walks _ (chains.slot_lt key))

/-- Appending an entry puts it in front of the chain of its bucket. -/
theorem appended (chains : Chains hi chain) {key : Key} (keyFits : key.length ≤ 65535)
    {slot : Nat} (slotEq : slot = (fnv64a key).toNat % hi.bucketCount) (addr : NeedleAddr)
    (expiresAt : Int64) (deleted : Bool)
    (fits : hi.writePos + (entryOverhead + key.length) ≤ File.maxSize)
    (entryCount : Int64) :
    Chains (Index.appended hi slot
        (encodeIndexEntry (hi.buckets.getD slot 0) key addr expiresAt deleted) entryCount)
      (Function.update chain slot
        (newEntry (hi.buckets.getD slot 0) key addr expiresAt deleted :: chain slot)) := by
  have slotLt : slot < hi.bucketCount := slotEq ▸ chains.slot_lt key
  set entry := encodeIndexEntry (hi.buckets.getD slot 0) key addr expiresAt deleted with entryDef
  have entryFits : hi.writePos + entry.length ≤ File.maxSize := by
    rw [entryDef, length_encodeIndexEntry]
    exact fits
  have table := chains.usable.table
  have inRange : slot < hi.buckets.length := chains.usable.buckets_length ▸ slotLt
  have grown := chains.usable.appended_grown slotLt entry entryCount
  refine ⟨(chains.usable.appended slotLt entryFits entryCount).1, ?_, ?_, ?_⟩
  · obtain ⟨header, rest, contents, headerLength⟩ :
        ∃ header rest, hi.f = header ++ (tableBytes hi.buckets ++ rest) ∧
          header.length = hiHeaderSize := by
      refine ⟨hi.f.take hiHeaderSize, hi.f.drop (hiHeaderSize + hi.bucketCount * 8), ?_, ?_⟩
      · rw [← chains.table, readAt, ← List.drop_drop, List.take_append_drop,
          List.take_append_drop]
      · rw [List.length_take]
        unfold dataStart at table
        omega
    have written : (Index.appended hi slot entry entryCount).f =
        header ++ (tableBytes (hi.buckets.set slot hi.writePos) ++ (rest ++ entry)) := by
      change File.writeAt (hi.f ++ entry) (hi.bucketBase + slot * 8) (putLE 8 hi.writePos) = _
      rw [contents, chains.usable.bucketBase_eq, List.append_assoc, List.append_assoc]
      exact writeAt_slot headerLength inRange hi.writePos
    rw [written]
    exact File.readAt_field headerLength.symm (by
      rw [length_tableBytes, List.length_set, chains.usable.buckets_length]
      rfl) _
  · intro other otherLt
    change Walk (Index.appended hi slot entry entryCount).f (dataStart hi.bucketCount)
      ((hi.buckets.set slot hi.writePos).getD other 0) _
    by_cases same : slot = other
    · subst same
      rw [Function.update_self, List.getD_eq_getElem?_getD, List.getElem?_set_self inRange,
        Option.getD_some, chains.usable.writePos_eq]
      exact ((chains.walks slot slotLt).extend chains.usable.nonempty table chains.usable.within
        keyFits addr expiresAt deleted).grow grown
    · rw [Function.update_of_ne (Ne.symm same), List.getD_eq_getElem?_getD,
        List.getElem?_set_ne same, ← List.getD_eq_getElem?_getD]
      exact (chains.walks other otherLt).grow ((Grown.append _ _ _).trans grown)
  · intro other e mem
    by_cases same : slot = other
    · subst same
      rw [Function.update_self] at mem
      rcases List.mem_cons.mp mem with rfl | old
      · exact slotEq.symm
      · exact chains.placed slot e old
    · rw [Function.update_of_ne (Ne.symm same)] at mem
      exact chains.placed other e mem

end Chains

/-! ## A properly laid out index -/

/-- The entry of a record as it is read back. -/
def Record.read (record : Record) : IdxEntry :=
  ⟨record.next, record.key, record.addr, record.expiresAt, record.deleted, record.size⟩

/-- The walk from the head of a bucket, in any older part of the log. -/
theorem Layout.walk {hi : HashIndex} {stored : Int64} {log : List Record}
    (layout : Layout hi stored log) (slot : Nat) (newer older : List Record)
    (split : log = newer ++ older) :
    ∃ entries, Walk hi.f (dataStart hi.bucketCount) (headOf hi.bucketCount slot older) entries ∧
      (∀ e ∈ entries, (fnv64a e.key).toNat % hi.bucketCount = slot) ∧
      ∀ key, (fnv64a key).toNat % hi.bucketCount = slot → found entries key = newest older key := by
  induction older generalizing newer with
  | nil => exact ⟨[], .done, by simp, fun _ _ => rfl⟩
  | cons record older ih =>
      rcases ih (newer ++ [record]) (by simp [split]) with
        ⟨entries, walk, placed, agree⟩
      by_cases same : record.bucket hi.bucketCount = slot
      · have headEq : headOf hi.bucketCount slot (record :: older) =
            dataStart hi.bucketCount + Chain.span Record.size older := by
          simp [headOf, Chain.head, same]
        have link : record.next = headOf hi.bucketCount slot older := by
          have whole := layout.linked
          rw [split] at whole
          rw [← same]
          exact (Chain.Linked.older whole).1
        have backwards : headOf hi.bucketCount slot older <
            dataStart hi.bucketCount + Chain.span Record.size older :=
          Chain.head_lt (by simp [dataStart, hiHeaderSize])
            (fun other => by have size := other.size_pos; omega) older
        refine ⟨record.read :: entries, ?_, ?_, fun key keySlot => ?_⟩
        · rw [headEq]
          refine .step (Nat.zero_lt_of_lt backwards) (Nat.le_add_right _ _)
            (layout.readEntryAt_eq split) ?_ ?_
          · exact link.trans_lt backwards
          · change Walk _ _ record.next entries
            rw [link]
            exact walk
        · exact List.forall_mem_cons.mpr ⟨same, placed⟩
        · rw [newest_cons, found_cons, agree key keySlot]
          rfl
      · have headEq : headOf hi.bucketCount slot (record :: older) =
            headOf hi.bucketCount slot older := by
          simp [headOf, Chain.head, same]
        refine ⟨entries, headEq ▸ walk, placed, fun key keySlot => ?_⟩
        have different : record.key ≠ key := by
          intro sameKey
          exact same (by rw [Record.bucket, sameKey, keySlot])
        rw [newest_cons, if_neg different, agree key keySlot]

/-- The chains of a properly laid out index say what its log says. -/
theorem Layout.chains {hi : HashIndex} {stored : Int64} {log : List Record}
    (layout : Layout hi stored log) :
    ∃ chain, Chains hi chain ∧
      ∀ key, found (chain ((fnv64a key).toNat % hi.bucketCount)) key = newest log key := by
  choose chain walk placed agree using fun slot => layout.walk slot [] log rfl
  refine ⟨chain, ⟨layout.usable, ?_, fun slot slotLt => ?_, placed⟩, fun key => agree _ key rfl⟩
  · rw [layout.contents_eq]
    exact File.readAt_field (length_encodeHeader ..).symm
      (by rw [length_tableBytes, layout.buckets_length]) _
  · rw [layout.heads slot slotLt]
    exact walk slot

end BriseDB.Index
