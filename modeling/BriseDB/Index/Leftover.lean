import BriseDB.Index.Refinement
import BriseDB.Index.Walk

/-!
# Compaction over a leftover file

`Compact` writes the new index to `index.hash.tmp` and renames it at the end.  A
process that ends before the rename leaves that file behind, and the next `Compact`
opens it as it is: it keeps the header, the size of the table and all entries.  The
live entries are added to those of the earlier attempt, in a table of the earlier
size, and that table is then read with the new size.

What has become of the file when the process ended is given by `Crashed`.  A bucket
pointer is taken to be written as a whole or not at all; all other writes may have been
carried out in part.
-/

namespace BriseDB.Index

open Bytes (putLE getLE)
open File (readAt)

/-! ## What an earlier attempt leaves -/

/-- The earlier `Compact` up to the entries that it has written. -/
def refill (buckets : UInt64) (done : List Visit) : Exec HashIndex Unit := do
  openHashIndex buckets
  Exec.each done fun visit => set visit.key visit.addr visit.expiresAt

/-- The index that the earlier `Compact` was working on. -/
def refilled (buckets : UInt64) (done : List Visit) : HashIndex :=
  (refill buckets done (HashIndex.ofFiles [] []) []).state

/-- The new file before the first entry. -/
def newFile (buckets : UInt64) : Bytes :=
  encodeHeader buckets.toNat (dataStart buckets.toNat) 0 ++ List.replicate (buckets.toNat * 8) 0

/-- The entry that the earlier `Compact` was about to append. -/
def nextEntry (hi : HashIndex) (visit : Visit) : Bytes :=
  encodeIndexEntry (hi.buckets.getD ((fnv64a visit.key).toNat % hi.bucketCount) 0) visit.key
    visit.addr visit.expiresAt false

/-- The contents of the temporary file of a `Compact` with the given number of buckets
whose process ended: while the file was created, while the entry after those in `done`
was appended, or while the header was written at the end. -/
inductive Crashed (buckets : UInt64) : List Visit → Bytes → Prop
  | creating (written : Nat) (fits : written ≤ File.maxSize) :
      Crashed buckets [] ((newFile buckets).take written)
  | filling {done : List Visit}
      (clean : (refill buckets done (HashIndex.ofFiles [] []) []).failed = false) (visit : Visit)
      (fits : (refilled buckets done).f.length + (nextEntry (refilled buckets done) visit).length ≤
        File.maxSize) (written : Nat) :
      Crashed buckets done
        ((refilled buckets done).f ++ (nextEntry (refilled buckets done) visit).take written)
  | closing {done : List Visit}
      (clean : (refill buckets done (HashIndex.ofFiles [] []) []).failed = false) (written : Nat) :
      Crashed buckets done (File.writeAt (refilled buckets done).f 0
        ((encodeHeader (refilled buckets done).bucketCount (refilled buckets done).dataBase
          (refilled buckets done).entryCount).take written))

/-- A file that opens: a header, a table of bucket pointers, and the chains from them. -/
structure Leftover (tmp : Bytes) (buckets : List Nat) (chain : Nat → List IdxEntry) : Prop where
  count_pos : 0 < buckets.length
  contents : ∃ stored rest, tmp = encodeHeader buckets.length (dataStart buckets.length) stored ++
    (tableBytes buckets ++ rest)
  within : tmp.length ≤ File.maxSize
  walks : ∀ slot < buckets.length,
    Walk tmp (dataStart buckets.length) (buckets.getD slot 0) (chain slot)
  placed : ∀ slot, ∀ e ∈ chain slot, (fnv64a e.key).toNat % buckets.length = slot

section

variable {room : Prop} {buckets : UInt64} {done : List Visit} {hi : HashIndex}
  {chain : Nat → List IdxEntry} {content : Content}

theorem refill_returns (nonzero : buckets ≠ 0) (fits : ∀ visit ∈ done, visit.key.length ≤ 65535)
    (roomy : room → dataStart buckets.toNat + visitBytes done ≤ File.maxSize) :
    (refill buckets done).Returns room (HashIndex.ofFiles [] []) fun _ hi =>
      ∃ log, Layout hi 0 log ∧ hi.bucketCount = buckets.toNat ∧
        (∀ key, newest log key ≠ none ↔ key ∈ done.map Visit.key) ∧
        hi.f.length = dataStart buckets.toNat + visitBytes done := by
  have openRoom : room → dataStart (if buckets = 0 then defaultBucketCount
      else buckets).toNat ≤ File.maxSize := by
    intro isRoom
    rw [if_neg nonzero]
    exact (Nat.le_add_right _ _).trans (roomy isRoom)
  unfold refill
  refine .bind (openHashIndex_fresh rfl buckets openRoom) ?_
  rintro _ opened ⟨fresh, _, _, openedCount⟩
  rw [if_neg nonzero] at openedCount
  refine .each (fun before hi => ∃ log, Layout hi 0 log ∧
    hi.bucketCount = buckets.toNat ∧ (∀ key, newest log key ≠ none ↔ key ∈ before.map Visit.key) ∧
      hi.f.length = dataStart buckets.toNat + visitBytes before) ?_ ?_
  · rintro before visit after hi split ⟨log, layout, countEq, keys, lengthEq⟩
    have visitFits : visit.key.length ≤ 65535 := fits visit (by simp [split])
    have grown : dataStart buckets.toNat + visitBytes (before ++ [visit]) =
        hi.f.length + (entryOverhead + visit.key.length) := by
      simp only [lengthEq, visitBytes, List.map_append, List.sum_append, List.map_cons,
        List.map_nil, List.sum_cons, List.sum_nil]
      omega
    have enough : room → hi.f.length + (entryOverhead + visit.key.length) ≤ File.maxSize := by
      intro isRoom
      have total := roomy isRoom
      rw [← grown]
      rw [split] at total
      simp only [visitBytes, List.map_append, List.map_cons, List.sum_append,
        List.sum_cons, List.map_nil, List.sum_nil] at total ⊢
      omega
    refine .mono (set_returns layout visitFits enough) ?_
    rintro _ next ⟨nextLayout, _, _, nextCount⟩
    refine ⟨_, nextLayout, nextCount.trans countEq, fun key => ?_, ?_⟩
    · rw [newest_cons]
      by_cases same : visit.key = key
      · rw [if_pos (show (newRecord _ _ _ _ _ _).key = key from same)]
        simp [newRecord, Record.content, same]
      · rw [if_neg (show (newRecord _ _ _ _ _ _).key ≠ key from same), keys]
        simp [Ne.symm same]
    · rw [grown, Represents.length_append_record layout nextLayout nextCount]
      rfl
  · exact ⟨[], fresh, openedCount, by simp [newest], by
      rw [fresh.length_eq, openedCount]
      rfl⟩

/-- A file with the table and the entries of a proper index opens, whatever has been
appended to it and whatever entry count its header stores. -/
theorem Layout.leftover {stored : Int64} {log : List Record}
    (layout : Layout hi stored log) {tmp torn : Bytes} {newStored : Int64}
    (tmpEq : tmp = encodeHeader hi.bucketCount (dataStart hi.bucketCount) newStored ++
      (tableBytes hi.buckets ++ (dataBytes log ++ torn)))
    (within : tmp.length ≤ File.maxSize) :
    ∃ chain, Leftover tmp hi.buckets chain ∧
      ∀ key, found (chain ((fnv64a key).toNat % hi.bucketCount)) key = newest log key := by
  rcases layout.chains with ⟨chain, chains, agree⟩
  have front : ∀ stored, (encodeHeader hi.bucketCount (dataStart hi.bucketCount) stored ++
      tableBytes hi.buckets).length = dataStart hi.bucketCount := by
    intro stored
    simp [layout.buckets_length, dataStart]
  have grown : Grown (dataStart hi.bucketCount) hi.f tmp := by
    have contents := layout.contents_eq
    rw [layout.dataBase_eq, ← List.append_assoc] at contents
    rw [← List.append_assoc] at tmpEq
    rw [Grown, contents, tmpEq, List.drop_left' (front _), List.drop_left' (front _)]
    exact List.prefix_append ..
  refine ⟨chain, ?_, agree⟩
  exact
    { count_pos := layout.buckets_length ▸ layout.bucketCount_pos
      contents := ⟨newStored, dataBytes log ++ torn, by rw [layout.buckets_length]; exact tmpEq⟩
      within := within
      walks := by
        rw [layout.buckets_length]
        exact fun slot slotLt => (chains.walks slot slotLt).grow grown
      placed := by
        rw [layout.buckets_length]
        exact chains.placed }

/-! ### Files that do not open -/

theorem loadBuckets_stops
    (short : (readAt hi.f hi.bucketBase (hi.bucketCount * 8)).length < hi.bucketCount * 8) :
    Exec.Stops loadBuckets hi := by
  refine .bind_state ?_
  intro faults value isOk
  split at isOk
  · cases isOk
  · simp only [if_pos short] at isOk
    cases isOk

/-- A file that was not created completely does not open. -/
theorem openHashIndex_stops {written : Nat} (started : written ≠ 0)
    (incomplete : written < (newFile buckets).length) (bucketCount : UInt64) :
    Exec.Stops (openHashIndex bucketCount)
      (HashIndex.ofFiles ((newFile buckets).take written) []) := by
  set tmp := (newFile buckets).take written with tmpDef
  have tmpLength : tmp.length = written := by
    rw [tmpDef, List.length_take]
    omega
  have nonempty : tmp ≠ [] := by
    intro empty
    rw [empty] at tmpLength
    exact started tmpLength.symm
  unfold openHashIndex
  refine .bind_modify (.bind_state ?_)
  rw [if_neg (show (HashIndex.ofFiles tmp []).f ≠ [] from nonempty)]
  by_cases noHeader : written < hiHeaderSize
  · refine .bind _ (.wrap _ (.bind_state ?_))
    have short : (readAt (HashIndex.ofFiles tmp []).f 0 hiHeaderSize).length < hiHeaderSize := by
      rw [File.length_readAt]
      change min _ (tmp.length - 0) < _
      omega
    simp only [if_pos short]
    exact .throw _
  · obtain ⟨rest, tmpEq, restLength⟩ : ∃ rest,
        tmp = encodeHeader buckets.toNat (dataStart buckets.toNat) 0 ++ rest ∧
          rest.length < buckets.toNat * 8 := by
      refine ⟨(List.replicate (buckets.toNat * 8) 0).take (written - hiHeaderSize), ?_, ?_⟩
      · rw [tmpDef, newFile, List.take_append, length_encodeHeader,
          List.take_of_length_le (by rw [length_encodeHeader]; omega)]
      · rw [newFile, List.length_append, length_encodeHeader, List.length_replicate] at incomplete
        rw [List.length_take, List.length_replicate]
        omega
    have countFits : buckets.toNat < 2 ^ 64 := buckets.toNat_lt
    have reads : ∀ current : HashIndex, current.f = tmp → ∀ faults,
        Exec.wrap "read hash index header" readHeader current faults =
          ⟨.ok (), { current with
            bucketCount := buckets.toNat
            bucketBase := hiHeaderSize
            dataBase := getLE (putLE 8 (dataStart buckets.toNat))
            entryCount := 0 }, faults, false⟩ := fun current same faults =>
      Exec.wrap_of_ok _ (readHeader_eq (same.trans tmpEq) countFits faults)
    refine .bind_of_eq (reads _ rfl) (.bind_modify (.wrap _ ?_))
    apply loadBuckets_stops
    change (readAt tmp hiHeaderSize (buckets.toNat * 8)).length < buckets.toNat * 8
    rw [File.length_readAt, tmpEq, List.length_append, length_encodeHeader]
    omega

/-- A file that an earlier attempt has left is empty, or does not open, or is as if it
had been closed after the entries in `done`. -/
theorem Crashed.cases {tmp : Bytes} (crashed : Crashed buckets done tmp) (nonzero : buckets ≠ 0)
    (fits : ∀ visit ∈ done, visit.key.length ≤ 65535) :
    tmp = [] ∨
      (∀ bucketCount, Exec.Stops (openHashIndex bucketCount) (HashIndex.ofFiles tmp [])) ∨
      ∃ table chain, table.length = buckets.toNat ∧ Leftover tmp table chain ∧
        ∀ key, found (chain ((fnv64a key).toNat % buckets.toNat)) key ≠ none ↔
          key ∈ done.map Visit.key := by
  have ran : (refill buckets done (HashIndex.ofFiles [] []) []).failed = false →
      ∃ log, Layout (refilled buckets done) 0 log ∧
        (refilled buckets done).bucketCount = buckets.toNat ∧
        ∀ key, newest log key ≠ none ↔ key ∈ done.map Visit.key := by
    intro clean
    rcases (refill_returns nonzero fits False.elim).correct [] clean with
      ⟨_, _, log, layout, countEq, keys, _⟩
    exact ⟨log, layout, countEq, keys⟩
  cases crashed with
  | creating written small =>
      by_cases started : written = 0
      · exact .inl (by rw [started, List.take_zero])
      by_cases incomplete : written < (newFile buckets).length
      · exact .inr (.inl (openHashIndex_stops started incomplete))
      · have whole : (newFile buckets).take written = newFile buckets :=
          List.take_of_length_le (Nat.not_lt.mp incomplete)
        have positive : 0 < buckets.toNat :=
          Nat.pos_of_ne_zero fun zero => nonzero (UInt64.toNat_inj.mp zero)
        refine .inr (.inr ⟨List.replicate buckets.toNat 0, fun _ => [], by simp, ?_, by
          simp [found]⟩)
        rw [whole]
        exact
          { count_pos := by simpa using positive
            contents := ⟨0, [], by simp [newFile, tableBytes_replicate]⟩
            within := (Nat.not_lt.mp incomplete).trans small
            walks := by
              intro slot slotLt
              rw [List.length_replicate] at slotLt
              have head : (List.replicate buckets.toNat 0).getD slot 0 = 0 := by
                simp [List.getD_eq_getElem?_getD, slotLt]
              rw [head]
              exact .done
            placed := by simp }
  | filling clean visit fitsFile written =>
      rcases ran clean with ⟨log, layout, countEq, keys⟩
      have contents := layout.contents_eq
      rw [layout.dataBase_eq] at contents
      rcases @Layout.leftover _ _ _ layout ((refilled buckets done).f ++
          (nextEntry (refilled buckets done) visit).take written)
        ((nextEntry (refilled buckets done) visit).take written) 0
        (by nth_rewrite 1 [contents]; simp)
        (by rw [List.length_append, List.length_take]; omega) with ⟨chain, leftover, agree⟩
      rw [countEq] at agree
      exact .inr (.inr ⟨_, chain, layout.buckets_length.trans countEq, leftover,
        fun key => by rw [agree, keys]⟩)
  | closing clean written =>
      rcases ran clean with ⟨log, layout, countEq, keys⟩
      rcases writeAt_header (refilled buckets done).bucketCount (refilled buckets done).dataBase 0
        (refilled buckets done).entryCount written
        (tableBytes (refilled buckets done).buckets ++ dataBytes log) with ⟨stored, tmpEq⟩
      rw [← layout.contents_eq, layout.dataBase_eq] at tmpEq
      have fileLength := congrArg List.length layout.contents_eq
      have within := layout.within
      simp only [List.length_append, length_encodeHeader] at fileLength
      rcases @Layout.leftover _ _ _ layout _ [] stored (by rw [List.append_nil])
        (by simp only [List.length_append, length_encodeHeader]; omega) with
        ⟨chain, leftover, agree⟩
      rw [countEq] at agree
      rw [← tmpEq, ← layout.dataBase_eq] at leftover
      exact .inr (.inr ⟨_, chain, layout.buckets_length.trans countEq, leftover,
        fun key => by rw [agree, keys]⟩)

/-! ## The next attempt -/

/-- The header fits the fields in memory. -/
def Headed (hi : HashIndex) : Prop :=
  ∃ stored rest, hi.f = encodeHeader hi.bucketCount hi.dataBase stored ++ rest

/-- Opening the file takes its table over, whatever size is asked for. -/
theorem Leftover.open {tmp : Bytes} {table : List Nat}
    (leftover : Leftover tmp table chain) (bucketCount : UInt64) :
    (openHashIndex bucketCount).Returns room (HashIndex.ofFiles tmp []) fun _ opened =>
      Chains opened chain ∧ opened.bucketCount = table.length ∧ Headed opened ∧
        opened.f = tmp := by
  rcases leftover.contents with ⟨stored, rest, contents⟩
  have lengths : tmp.length = hiHeaderSize + (table.length * 8 + rest.length) := by
    rw [contents]
    simp
  have within := leftover.within
  have nonempty : 0 < tmp.length := by
    unfold hiHeaderSize at lengths
    omega
  have heads : ∀ slot < table.length, table.getD slot 0 < 2 ^ 63 := by
    intro slot slotLt
    have inside := (leftover.walks slot slotLt).off_lt nonempty
    unfold File.maxSize at within
    omega
  have fit : ∀ head ∈ table, head < 2 ^ 64 := by
    intro head mem
    rcases List.mem_iff_getElem.mp mem with ⟨slot, slotLt, rfl⟩
    have small := heads slot slotLt
    rw [List.getD_eq_getElem?_getD, List.getElem?_eq_getElem slotLt, Option.getD_some] at small
    omega
  have tableEq : parseTable table.length ((tableBytes table ++ rest).take (table.length * 8)) =
      table := by
    rw [List.take_left' (length_tableBytes table), parseTable_tableBytes fit]
  refine openHashIndex_existing contents (by omega)
    (by unfold dataStart; unfold File.maxSize at within; omega) (by simp) bucketCount ?_
  rw [tableEq]
  refine ⟨⟨?_, ?_, leftover.walks, leftover.placed⟩, rfl, ⟨stored, _, contents⟩, rfl⟩
  · exact
      { bucketCount_pos := leftover.count_pos
        bucketBase_eq := rfl
        buckets_length := rfl
        writePos_eq := rfl
        table := by
          change dataStart table.length ≤ tmp.length
          unfold dataStart
          omega
        within := within
        heads_fit := heads }
  · change readAt tmp hiHeaderSize (table.length * 8) = tableBytes table
    rw [contents]
    exact File.readAt_field (length_encodeHeader ..).symm (length_tableBytes table).symm _

/-- `Set` in any index with chains. -/
theorem Chains.set_returns (chains : Chains hi chain)
    (headed : Headed hi) {key : Key} (keyFits : key.length ≤ 65535) (addr : NeedleAddr)
    (expiresAt : Int64) (roomy : room → hi.f.length + (entryOverhead + key.length) ≤ File.maxSize) :
    (set key addr expiresAt).Returns room hi fun _ next =>
      ∃ nextChain, Chains next nextChain ∧ Headed next ∧ next.bucketCount = hi.bucketCount ∧
        next.f.length = hi.f.length + (entryOverhead + key.length) ∧
        ∀ other, found (nextChain ((fnv64a other).toNat % hi.bucketCount)) other =
          if key = other then some (addr, expiresAt)
          else found (chain ((fnv64a other).toNat % hi.bucketCount)) other := by
  refine .mono (appendEntry_appends chains.usable roomy _ _) ?_
  rintro _ _ ⟨rfl, fits⟩
  set slot := (fnv64a key).toNat % hi.bucketCount with slotDef
  have slotLt : slot < hi.bucketCount := chains.slot_lt key
  have nextChains := chains.appended keyFits slotDef addr expiresAt false fits (hi.entryCount + 1)
  set entry := encodeIndexEntry (hi.buckets.getD slot 0) key addr expiresAt false with entryDef
  refine ⟨_, nextChains, ?_, rfl, ?_, fun other => ?_⟩
  · rcases headed with ⟨stored, rest, contents⟩
    refine ⟨stored, File.writeAt (rest ++ entry) (slot * 8) (putLE 8 hi.writePos), ?_⟩
    change File.writeAt (hi.f ++ entry) (hi.bucketBase + slot * 8) (putLE 8 hi.writePos) = _
    rw [chains.usable.bucketBase_eq, contents, List.append_assoc,
      ← length_encodeHeader hi.bucketCount hi.dataBase stored, File.writeAt_append_right]
    rfl
  · have entryFits : hi.writePos + entry.length ≤ File.maxSize := by
      rw [entryDef, length_encodeIndexEntry]
      exact fits
    rcases (chains.usable.appended slotLt entryFits (hi.entryCount + 1)).2 with
      ⟨before, sameLength, contents⟩
    rw [contents, List.length_append, sameLength, entryDef, length_encodeIndexEntry]
  · by_cases sameSlot : (fnv64a other).toNat % hi.bucketCount = slot
    · rw [sameSlot, Function.update_self, found_cons]
      rfl
    · have different : key ≠ other := by
        rintro rfl
        exact sameSlot rfl
      rw [Function.update_of_ne sameSlot, if_neg different]

/-- The index after the visited entries have been added to those it was opened with. -/
structure Merged (opened : HashIndex) (chain : Nat → List IdxEntry) (calls : List Visit)
    (next : HashIndex) (nextChain : Nat → List IdxEntry) : Prop where
  chains : Chains next nextChain
  headed : Headed next
  count_eq : next.bucketCount = opened.bucketCount
  length_eq : next.f.length = opened.f.length + visitBytes calls
  added : ∀ visit ∈ calls,
    found (nextChain ((fnv64a visit.key).toNat % opened.bucketCount)) visit.key =
      some (visit.addr, visit.expiresAt)
  kept : ∀ key, key ∉ calls.map Visit.key →
    found (nextChain ((fnv64a key).toNat % opened.bucketCount)) key =
      found (chain ((fnv64a key).toNat % opened.bucketCount)) key

theorem Chains.fill_returns {opened : HashIndex}
    (chains : Chains opened chain) (headed : Headed opened) {calls : List Visit}
    (nodup : (calls.map Visit.key).Nodup) (fits : ∀ visit ∈ calls, visit.key.length ≤ 65535)
    (roomy : room → opened.f.length + visitBytes calls ≤ File.maxSize) :
    (Exec.each calls fun visit => Index.set visit.key visit.addr visit.expiresAt).Returns room
      opened fun _ next => ∃ nextChain, Merged opened chain calls next nextChain := by
  refine .each (fun before next => ∃ nextChain, Merged opened chain before next nextChain) ?_ ?_
  · rintro before visit after hi split ⟨midChain, merged⟩
    have visitFits : visit.key.length ≤ 65535 := fits visit (by simp [split])
    have unseen : visit.key ∉ before.map Visit.key := by
      rw [split, List.map_append, List.map_cons, List.nodup_append] at nodup
      exact fun mem => nodup.2.2 _ mem _ List.mem_cons_self rfl
    have enough : room → hi.f.length + (entryOverhead + visit.key.length) ≤ File.maxSize := by
      intro isRoom
      have total := roomy isRoom
      rw [merged.length_eq]
      rw [split] at total
      simp only [visitBytes, List.map_append, List.map_cons, List.sum_append,
        List.sum_cons] at total ⊢
      omega
    refine .mono (merged.chains.set_returns merged.headed visitFits _ _ enough) ?_
    rintro _ next ⟨nextChain, nextChains, nextHeaded, nextCount, nextLength, nextFound⟩
    rw [merged.count_eq] at nextFound
    refine ⟨nextChain, nextChains, nextHeaded, nextCount.trans merged.count_eq, ?_, ?_, ?_⟩
    · rw [nextLength, merged.length_eq]
      simp only [visitBytes, List.map_append, List.sum_append, List.map_cons, List.map_nil,
        List.sum_cons, List.sum_nil]
      omega
    · intro other mem
      rw [nextFound]
      rcases List.mem_append.mp mem with earlier | last
      · have different : visit.key ≠ other.key := fun same =>
          unseen (same ▸ List.mem_map_of_mem earlier)
        rw [if_neg different]
        exact merged.added other earlier
      · rw [List.mem_singleton.mp last]
        exact if_pos rfl
    · intro key notMem
      rw [List.map_append, List.mem_append, not_or] at notMem
      have different : visit.key ≠ key := fun same => notMem.2 (by simp [same])
      rw [nextFound, if_neg different]
      exact merged.kept key notMem.1
  · exact ⟨chain, chains, headed, rfl, by simp [visitBytes], by simp, fun _ _ => rfl⟩

/-- The header is not part of the chains. -/
theorem Chains.rewriteHeader
    (chains : Chains hi chain) {dataBase : Nat} {old stored : Int64} {rest : Bytes}
    (contents : hi.f = encodeHeader hi.bucketCount dataBase old ++ rest) :
    Chains { hi with f := encodeHeader hi.bucketCount dataBase stored ++ rest } chain := by
  have usable := chains.usable
  have sameLength : (encodeHeader hi.bucketCount dataBase stored ++ rest).length = hi.f.length := by
    rw [contents]
    simp
  have behind : ∀ pos, hiHeaderSize ≤ pos →
      (encodeHeader hi.bucketCount dataBase stored ++ rest).drop pos = hi.f.drop pos := by
    intro pos le
    obtain ⟨more, rfl⟩ := Nat.exists_eq_add_of_le le
    rw [contents, ← List.drop_drop, ← List.drop_drop, List.drop_left' (length_encodeHeader ..),
      List.drop_left' (length_encodeHeader ..)]
  have grown : Grown (dataStart hi.bucketCount) hi.f
      (encodeHeader hi.bucketCount dataBase stored ++ rest) :=
    .of_drop_eq (behind (dataStart hi.bucketCount) (Nat.le_add_right _ _))
  refine ⟨⟨usable.bucketCount_pos, usable.bucketBase_eq, usable.buckets_length,
    usable.writePos_eq.trans sameLength.symm, usable.table.trans_eq sameLength.symm,
    sameLength.trans_le usable.within, usable.heads_fit⟩, ?_,
    fun slot slotLt => (chains.walks slot slotLt).grow grown, chains.placed⟩
  rw [← chains.table]
  exact congrArg (List.take _) (behind _ (Nat.le_refl _))

theorem tableBytes_take (buckets : List Nat) (count : Nat) :
    (tableBytes buckets).take (count * 8) = tableBytes (buckets.take count) := by
  induction buckets generalizing count with
  | nil => simp [tableBytes]
  | cons head rest ih =>
      cases count with
      | zero => simp [tableBytes]
      | succ count =>
          have bytes : ∀ rest, tableBytes (head :: rest) = putLE 8 head ++ tableBytes rest := by
            simp [tableBytes]
          rw [List.take_succ_cons, bytes, bytes, ← ih, List.take_append, Bytes.length_putLE,
            List.take_of_length_le (by rw [Bytes.length_putLE]; omega)]
          congr 2
          omega

/-- What a key has after `Compact` has read a table of `old` buckets with `new` ones:
the keys that the smaller table has in another bucket are lost. -/
def misread (old new : Nat) (chain : Nat → List IdxEntry) (key : Key) :
    Option (NeedleAddr × Int64) :=
  if (fnv64a key).toNat % old = (fnv64a key).toNat % new then
    found (chain ((fnv64a key).toNat % old)) key
  else none

/-- Loading only the first part of the table. -/
theorem Chains.load_returns {hi closed : HashIndex}
    (chains : Chains closed chain) {newBuckets : UInt64} (nonzero : newBuckets ≠ 0)
    (le : newBuckets.toNat ≤ closed.bucketCount) (liveCount : Nat) :
    loadBuckets.Returns room (adopted hi closed newBuckets liveCount) fun _ next =>
      ∀ key, get next key = .ok (misread closed.bucketCount newBuckets.toNat chain key) := by
  have usable := chains.usable
  have positive : 0 < newBuckets.toNat :=
    Nat.pos_of_ne_zero fun zero => nonzero (UInt64.toNat_inj.mp zero)
  have long := usable.table
  have within := usable.within
  unfold dataStart at long
  have split : closed.f = closed.f.take hiHeaderSize ++ closed.f.drop hiHeaderSize :=
    (List.take_append_drop ..).symm
  have tableEq : (closed.f.drop hiHeaderSize).take (newBuckets.toNat * 8) =
      tableBytes (closed.buckets.take newBuckets.toNat) := by
    rw [← tableBytes_take, ← chains.table, File.readAt, List.take_take, Nat.min_eq_left (by omega)]
  have takenLength : (closed.buckets.take newBuckets.toNat).length = newBuckets.toNat := by
    rw [List.length_take, usable.buckets_length, Nat.min_eq_left le]
  have parsed : parseTable newBuckets.toNat
      ((closed.f.drop hiHeaderSize).take (newBuckets.toNat * 8)) =
        closed.buckets.take newBuckets.toNat := by
    rw [tableEq]
    nth_rewrite 1 [← takenLength]
    refine parseTable_tableBytes fun head mem => ?_
    rcases List.mem_iff_getElem.mp (List.mem_of_mem_take mem) with ⟨slot, slotLt, rfl⟩
    have small := usable.heads_fit slot (usable.buckets_length ▸ slotLt)
    rw [List.getD_eq_getElem?_getD, List.getElem?_eq_getElem slotLt, Option.getD_some] at small
    omega
  refine @loadBuckets_returns room (adopted hi closed newBuckets liveCount) _ _ split
    (by rw [List.length_take]; omega) rfl (show newBuckets.toNat * 8 ≤ File.maxSize by omega)
    (show newBuckets.toNat * 8 ≤ (closed.f.drop hiHeaderSize).length by
      rw [List.length_drop]; omega) _ ?_
  intro key
  change get { adopted hi closed newBuckets liveCount with
    buckets := parseTable newBuckets.toNat
      ((closed.f.drop hiHeaderSize).take (newBuckets.toNat * 8)) } key = _
  rw [parsed]
  set slot := (fnv64a key).toNat % newBuckets.toNat with slotDef
  have slotLt : slot < newBuckets.toNat := Nat.mod_lt _ positive
  have sameHead : (closed.buckets.take newBuckets.toNat).getD slot 0 =
      closed.buckets.getD slot 0 := by
    rw [List.getD_eq_getElem?_getD, List.getD_eq_getElem?_getD, List.getElem?_take_of_lt slotLt]
  have walk := chains.walks slot (slotLt.trans_le le)
  rw [← sameHead] at walk
  refine (@get_of_walk { adopted hi closed newBuckets liveCount with
    buckets := closed.buckets.take newBuckets.toNat } _ _ key positive.ne' usable.nonempty
      walk).trans ?_
  rw [misread]
  split_ifs with alike
  · rw [alike]
  · -- the chain that is searched has no entry of the key
    have absent : (chain slot).find? (fun e => e.key = key) = none := by
      rw [List.find?_eq_none]
      intro e mem
      have placed := chains.placed slot e mem
      simp only [decide_eq_true_eq]
      rintro rfl
      exact alike placed
    rw [found, absent]
    rfl

/-- What the chains of a filled file say. -/
theorem Merged.found_eq {opened next : HashIndex} {chain nextChain : Nat → List IdxEntry}
    {calls : List Visit} (merged : Merged opened chain calls next nextChain) {nowNs : Int64}
    (enumerates : Enumerates nowNs content calls) (key : Key) :
    found (nextChain ((fnv64a key).toNat % opened.bucketCount)) key =
      (prune nowNs content key).or
        (found (chain ((fnv64a key).toNat % opened.bucketCount)) key) := by
  by_cases visited : key ∈ calls.map Visit.key
  · rcases List.mem_map.mp visited with ⟨visit, mem, rfl⟩
    rw [merged.added visit mem, prune_eq_some.mpr ((enumerates.mem_iff visit).mp mem)]
    rfl
  · have pruned : prune nowNs content key = none := by
      cases kept : prune nowNs content key with
      | none => rfl
      | some entry =>
          have mem : (⟨key, entry.1, entry.2⟩ : Visit) ∈ calls :=
            (enumerates.mem_iff _).mpr (prune_eq_some.mp kept)
          exact absurd (List.mem_map_of_mem mem) visited
    rw [merged.kept key visited, pruned]
    rfl

/-- `Compact` over a file that opens and whose table is at least as large as the new
one: the entries of both are there, as far as the two tables agree on their buckets. -/
theorem compact_merges (represents : Represents { hi with tmp := [] } content) {table : List Nat}
    (leftover : Leftover hi.tmp table chain)
    (le : (compactBuckets hi.entryCount).toNat ≤ table.length) (nowNs : Int64)
    (order : RangeOrder Key)
    (roomy : room → ∀ calls, Enumerates nowNs content calls →
      hi.tmp.length + visitBytes calls ≤ File.maxSize) :
    (compact (Time.ofNano nowNs) order).Delivers room hi fun _ next =>
      ∀ key, get next key = .ok
        (if (fnv64a key).toNat % table.length =
            (fnv64a key).toNat % (compactBuckets hi.entryCount).toNat then
          (prune nowNs content key).or (found (chain ((fnv64a key).toNat % table.length)) key)
        else none) := by
  rcases represents with ⟨stored, log, layout, rfl, _⟩
  rcases layout.forEach_eq nowNs order with ⟨calls, visitsEq, enumerates⟩
  have fits : ∀ visit ∈ calls, visit.key.length ≤ 65535 := fun visit mem =>
    key_fits_of_newest layout ((enumerates.mem_iff visit).mp mem).1
  refine Steps.delivers (?_ : Steps hi room calls
    (fun opened => Chains opened chain ∧ opened.bucketCount = table.length ∧ Headed opened ∧
      opened.f = hi.tmp)
    (fun filled => ∃ opened nextChain, opened.bucketCount = table.length ∧
      Merged opened chain calls filled nextChain)
    (fun closed => ∃ nextChain, Chains closed nextChain ∧ closed.bucketCount = table.length ∧
      ∀ key, found (nextChain ((fnv64a key).toNat % table.length)) key =
        (prune nowNs (newest log) key).or
          (found (chain ((fnv64a key).toNat % table.length)) key)) _)
    fun tmp => (forEach_tmp { hi with tmp := [] } tmp _ order).trans visitsEq
  refine ⟨?_, ?_, ?_, ?_, ?_⟩
  · exact .of_returns (leftover.open _) (openHashIndex_reports _)
  · rintro opened ⟨chains, countEq, headed, contents⟩
    refine .mono (.of_returns (chains.fill_returns headed
      enumerates.nodup fits fun isRoom => by rw [contents]; exact roomy isRoom calls enumerates)
      (.each fun _ => appendEntry_reports _ _ _ _ _ _)) ?_
    rintro _ filled ⟨nextChain, merged⟩
    exact ⟨opened, nextChain, countEq, merged⟩
  · rintro filled ⟨opened, nextChain, countEq, merged⟩
    rcases merged.headed with ⟨old, rest, contents⟩
    refine .mono (close_rewrites contents) ?_
    rintro _ _ ⟨newStored, rfl⟩
    refine ⟨nextChain, merged.chains.rewriteHeader contents, merged.count_eq.trans countEq,
      fun key => ?_⟩
    rw [← countEq]
    exact merged.found_eq enumerates key
  · rintro filled ⟨opened, nextChain, countEq, merged⟩ faults
    rcases merged.headed with ⟨old, rest, contents⟩
    exact (close_state contents faults).1
  · rintro closed ⟨nextChain, chains, countEq, agree⟩
    refine .mono (.of_returns (chains.load_returns
      layout.compactBuckets_ne_zero (le.trans_eq countEq.symm) _) loadBuckets_reports) ?_
    intro _ next answers key
    rw [answers, misread, countEq, agree]

/-- A `Compact` that returns nil over the file of an earlier attempt, with a table at
least as large as the new one, leaves exactly the live entries if and only if there was
nothing in that file, or the two tables agree on the buckets of the live keys and the
file has no key in such a bucket that is no longer live. -/
theorem compact_leftover_iff
    (represents : Represents { hi with tmp := [] } content) (nonzero : buckets ≠ 0)
    (fits : ∀ visit ∈ done, visit.key.length ≤ 65535) (crashed : Crashed buckets done hi.tmp)
    (le : hi.tmp = [] ∨ compactBuckets hi.entryCount ≤ buckets) (nowNs : Int64)
    (order : RangeOrder Key) (faults : List Fault)
    (succeeded : (compact (Time.ofNano nowNs) order hi faults).res = .ok ()) :
    (∀ key, get (compact (Time.ofNano nowNs) order hi faults).state key =
        .ok (prune nowNs content key)) ↔
      hi.tmp = [] ∨
        ((∀ key, prune nowNs content key ≠ none →
          (fnv64a key).toNat % buckets.toNat =
            (fnv64a key).toNat % (compactBuckets hi.entryCount).toNat) ∧
        ∀ visit ∈ done,
          (fnv64a visit.key).toNat % buckets.toNat =
            (fnv64a visit.key).toNat % (compactBuckets hi.entryCount).toNat →
          prune nowNs content visit.key ≠ none) := by
  by_cases noTmp : hi.tmp = []
  · have whole : Represents hi content := by
      have same : { hi with tmp := [] } = hi := by rw [← noTmp]
      rwa [same] at represents
    have delivers := @Represents.compact_delivers False hi content whole nowNs order False.elim
    rcases delivers.sound faults () succeeded with ⟨represents, _⟩
    exact ⟨fun _ => .inl noTmp, fun _ key => represents.get_eq key⟩
  have countLe : (compactBuckets hi.entryCount).toNat ≤ buckets.toNat :=
    UInt64.le_iff_toNat_le.mp (le.resolve_left noTmp)
  rcases crashed.cases nonzero fits with empty | stops | ⟨table, chain, countEq, leftover, keys⟩
  · exact absurd empty noTmp
  · -- the call has not got beyond opening the file
    have stopped : Exec.Stops (compact (Time.ofNano nowNs) order) hi :=
      Exec.Stops.bind_state (.bind_runOn (stops _)
        fun _ _ => .bind_modify (.throw _))
    exact absurd succeeded (stopped faults ())
  · have delivers := @compact_merges False hi chain content represents table leftover
      (countLe.trans_eq countEq.symm) nowNs order False.elim
    have answers := delivers.sound faults () succeeded
    simp only [countEq] at answers
    constructor
    · intro correct
      refine .inr ⟨fun key live => ?_, fun visit mem alike => ?_⟩
      · by_contra different
        have lost := (correct key).symm.trans (answers key)
        rw [if_neg different] at lost
        exact live (Res.ok.inj lost)
      · intro dead
        have returned := (correct visit.key).symm.trans (answers visit.key)
        rw [if_pos alike, dead] at returned
        exact (keys visit.key).mpr (List.mem_map_of_mem mem) (Res.ok.inj returned).symm
    · rintro (empty | ⟨agree, linked⟩) key
      · exact absurd empty noTmp
      rw [answers]
      cases pruned : prune nowNs content key with
      | some entry =>
          rw [if_pos (agree key (by rw [pruned]; exact Option.some_ne_none entry))]
          rfl
      | none =>
          by_cases alike : (fnv64a key).toNat % buckets.toNat =
              (fnv64a key).toNat % (compactBuckets hi.entryCount).toNat
          · have absent : found (chain ((fnv64a key).toNat % buckets.toNat)) key = none := by
              by_contra present
              rcases List.mem_map.mp ((keys key).mp present) with ⟨visit, mem, rfl⟩
              exact linked visit mem alike pruned
            rw [if_pos alike, absent]
            rfl
          · rw [if_neg alike]

/-- A file that was left after the given entries. -/
theorem exists_leftover (nonzero : buckets ≠ 0) (fits : ∀ visit ∈ done, visit.key.length ≤ 65535)
    (small : dataStart buckets.toNat + visitBytes done ≤ File.maxSize) :
    ∃ tmp table chain, Crashed buckets done tmp ∧ table.length = buckets.toNat ∧
      Leftover tmp table chain ∧
      (∀ key, found (chain ((fnv64a key).toNat % buckets.toNat)) key ≠ none ↔
        key ∈ done.map Visit.key) ∧
      tmp.length = dataStart buckets.toNat + visitBytes done := by
  have returns := @refill_returns True buckets done nonzero fits fun _ => small
  have clean := (returns.undisturbed trivial).1
  rcases returns.correct [] clean with ⟨_, _, log, layout, countEq, keys, lengthEq⟩
  change Layout (refilled buckets done) 0 log at layout
  have contents := layout.contents_eq
  rw [layout.dataBase_eq] at contents
  rcases layout.leftover (by rw [List.append_nil]; exact contents) layout.within with
    ⟨chain, leftover, agree⟩
  rw [show (refilled buckets done).bucketCount = buckets.toNat from countEq] at agree
  have crashed := Crashed.closing clean 0
  rw [List.take_zero, File.writeAt, if_pos rfl] at crashed
  exact ⟨_, _, chain, crashed, layout.buckets_length.trans countEq, leftover,
    fun key => by rw [agree, keys], lengthEq⟩

/-- `Compact` over a file that was left after the given entries. -/
theorem exists_retry {live : HashIndex} (represents : Represents live content)
    (sameBuckets : compactBuckets live.entryCount = defaultBucketCount)
    (fits : ∀ visit ∈ done, visit.key.length ≤ 65535)
    (small : ∀ calls, Enumerates 0 content calls →
      dataStart defaultBucketCount.toNat + visitBytes done + visitBytes calls ≤ File.maxSize) :
    ∃ tmp, tmp ≠ [] ∧ Crashed defaultBucketCount done tmp ∧
      Represents { live with tmp := [] } content ∧
      (compact (Time.ofNano 0) (.asStored Key) { live with tmp := tmp } []).res = .ok () ∧
      ∀ key, key ∈ done.map Visit.key →
        get (compact (Time.ofNano 0) (.asStored Key) { live with tmp := tmp } []).state key ≠
          .ok none := by
  rcases represents.forEach_eq 0 (.asStored Key) with ⟨visits, _, enumerates⟩
  rcases exists_leftover (by decide) fits (le_trans (Nat.le_add_right _ _)
    (small visits enumerates)) with
    ⟨tmp, table, chain, crashed, countEq, leftover, keys, lengthEq⟩
  have whole : Represents { live with tmp := [] } content := by
    have same : { live with tmp := [] } = live := by
      rcases represents with ⟨_, _, _, _, noTmp⟩
      rw [← noTmp]
    rw [same]
    exact represents
  have delivers := @compact_merges True { live with tmp := tmp } chain content whole table
    leftover
    (show (compactBuckets live.entryCount).toNat ≤ table.length by rw [sameBuckets, countEq])
    0 (.asStored Key) fun _ calls enumerates => by
      change tmp.length + _ ≤ _
      rw [lengthEq]
      exact small calls enumerates
  rcases delivers.clean [] (delivers.undisturbed trivial).1 with ⟨_, succeeded⟩
  refine ⟨tmp, ?_, crashed, whole, succeeded, fun key mem => ?_⟩
  · rintro rfl
    unfold dataStart hiHeaderSize at lengthEq
    rw [List.length_nil] at lengthEq
    omega
  · have answer := delivers.sound [] () succeeded key
    rw [answer, countEq, if_pos (show _ = (fnv64a key).toNat %
      (compactBuckets live.entryCount).toNat by rw [sameBuckets])]
    exact fun absent => (keys key).mpr mem (Option.or_eq_none_iff.mp (Res.ok.inj absent)).2

/-- A file that has the entry of a key that is still in the index does no harm. -/
theorem compact_leftover_kept :
    ∃ hi : HashIndex, Represents { hi with tmp := [] }
        (Function.update (fun _ => none) [107] (some (⟨0, 0, 1⟩, 0))) ∧
      Crashed defaultBucketCount [⟨[107], ⟨0, 0, 1⟩, 0⟩] hi.tmp ∧ hi.tmp ≠ [] ∧
      (compact (Time.ofNano 0) (.asStored Key) hi []).res = .ok () ∧
      ∀ key, get (compact (Time.ofNano 0) (.asStored Key) hi []).state key =
        .ok (prune 0 (Function.update (fun _ => none) [107] (some (⟨0, 0, 1⟩, 0))) key) := by
  rcases @exists_oneEntry [107] (by decide) ⟨0, 0, 1⟩ 0 with ⟨live, represents, oneEntry, _⟩
  have sameBuckets : compactBuckets live.entryCount = defaultBucketCount := by
    have one : live.entryCount = 1 := Int64.toInt_inj.mp oneEntry
    rw [one]
    rfl
  rcases @exists_retry [⟨[107], ⟨0, 0, 1⟩, 0⟩] _ _ represents sameBuckets (by simp) (by
    intro calls enumerates
    rw [enumerates.eq_update (by decide)]
    decide) with ⟨tmp, isTmp, crashed, whole, succeeded, _⟩
  refine ⟨{ live with tmp := tmp }, whole, crashed, isTmp, succeeded, ?_⟩
  refine (@compact_leftover_iff _ _ { live with tmp := tmp } _ whole (by decide) (by simp) crashed
    (.inr (UInt64.le_of_eq sameBuckets)) 0 (.asStored Key) [] succeeded).mpr
      (.inr ⟨fun key _ => ?_, fun visit mem _ => ?_⟩)
  · change _ = (fnv64a key).toNat % (compactBuckets live.entryCount).toNat
    rw [sameBuckets]
  · rw [List.mem_singleton.mp mem]
    decide

/-- An index has one key; a `Compact` ends after it has written its entry; the key is
deleted, and the next `Compact` brings it back. -/
theorem compact_leftover_returns :
    ∃ (before after : HashIndex) (done : List Visit) (tmp : Bytes),
      Represents before (Function.update (fun _ => none) [107] (some (⟨0, 0, 1⟩, 0))) ∧
      forEach before (Time.ofNano 0) (.asStored Key) = .ok ⟨done, none⟩ ∧
      Crashed (compactBuckets before.entryCount) done tmp ∧
      (delete [107] before []).res = .ok () ∧ after = (delete [107] before []).state ∧
      Represents after (fun _ => none) ∧
      (compact (Time.ofNano 0) (.asStored Key) { after with tmp := tmp } []).res = .ok () ∧
      get (compact (Time.ofNano 0) (.asStored Key) { after with tmp := tmp } []).state [107] ≠
        .ok (prune 0 (fun _ => none) [107]) := by
  rcases @exists_oneEntry [107] (by decide) ⟨0, 0, 1⟩ 0 with
    ⟨before, represents, oneEntry, lengthEq⟩
  rcases represents.forEach_eq 0 (.asStored Key) with ⟨done, visits, enumerates⟩
  have doneEq : done = [⟨[107], ⟨0, 0, 1⟩, 0⟩] := enumerates.eq_update (by decide)
  have deletes := @Represents.delete True _ _ represents [107] (by decide)
    fun _ => by rw [lengthEq]; decide
  rcases deletes.correct [] (deletes.undisturbed trivial).1 with ⟨_, deleted, emptied, countEq, _⟩
  rw [Function.update_idem, Function.update_eq_self] at emptied
  have noEntries : (delete [107] before []).state.entryCount = 0 := by
    rw [oneEntry] at countEq
    exact Int64.toInt_inj.mp countEq
  have sameBuckets : compactBuckets before.entryCount = defaultBucketCount := by
    have one : before.entryCount = 1 := Int64.toInt_inj.mp oneEntry
    rw [one]
    rfl
  have retryBuckets : compactBuckets (delete [107] before []).state.entryCount =
      defaultBucketCount := by
    rw [noEntries]
    rfl
  have small : ∀ calls, Enumerates 0 (fun _ => none) calls →
      dataStart defaultBucketCount.toNat + visitBytes done + visitBytes calls ≤ File.maxSize := by
    intro calls enumerates
    have empty : calls = [] := List.eq_nil_iff_forall_not_mem.mpr fun visit mem => by
      cases ((enumerates.mem_iff visit).mp mem).1
    rw [empty, doneEq]
    decide
  rcases @exists_retry done _ _ emptied retryBuckets (by rw [doneEq]; simp) small with
    ⟨tmp, _, crashed, _, succeeded, back⟩
  refine ⟨before, _, done, tmp, represents, visits, by rw [sameBuckets]; exact crashed, deleted,
    rfl, emptied, succeeded, back [107] ?_⟩
  rw [doneEq]
  exact List.mem_singleton_self _

end

end BriseDB.Index
