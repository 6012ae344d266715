import BriseDB.Index.Leftover
import BriseDB.Index.Torn

/-!
# The process stops between two writes

A process creates an index, writes to it, and stops between two of its writes.  Creating the
file takes two writes, for the header and for the bucket table.  `Set` and `Delete` take two
each, for the entry and for the bucket pointer.

A file that has only its header cannot be opened again.  An entry without its pointer is not on
its chain, where `Get` looks, and is in the data region, which `ForEach` scans.  So the two show
different maps, unless the entry changes nothing.
-/

namespace BriseDB.Index

open Bytes (putLE getLE)
open File (readAt)

/-- The operations that write to the index. -/
inductive Write where
  | set (key : Key) (addr : NeedleAddr) (expiresAt : Int64)
  | delete (key : Key)
  deriving DecidableEq

namespace Write

def key : Write → Key
  | set key _ _ => key
  | delete key => key

/-- Carry out a write. -/
def run : Write → Exec HashIndex Unit
  | set key addr expiresAt => Index.set key addr expiresAt
  | delete key => Index.delete key

/-- What a write does to the map the index stands for. -/
def apply (content : Content) : Write → Content
  | set key addr expiresAt => Function.update content key (some (addr, expiresAt))
  | delete key => Function.update content key none

/-- The bytes of the entry. -/
def cost (w : Write) : Nat :=
  entryOverhead + w.key.length

end Write

/-- Create an index and write to it. -/
def build (bucketCount : UInt64) (writes : List Write) : Exec HashIndex Unit := do
  openHashIndex bucketCount
  Exec.each writes Write.run

/-- The outcomes of the writes of a process that stops after `count` of them. -/
def stopAfter (count : Nat) : List Fault :=
  List.replicate count .complete ++ [.cut 0]

/-- The file of a process that stops after `count` writes. -/
def stoppedFile (bucketCount : UInt64) (writes : List Write) (count : Nat) : Bytes :=
  (build bucketCount writes (HashIndex.ofFiles [] []) (stopAfter count)).state.f

/-- The next process opens the file. -/
def reopened (bucketCount : UInt64) (file : Bytes) : Out HashIndex Unit :=
  openHashIndex bucketCount (HashIndex.ofFiles file []) []

/-- The map that writes build. -/
def contentAfter (writes : List Write) : Content :=
  writes.foldl Write.apply fun _ => none

/-- `Get` and `ForEach` show `content`. -/
structure Shows (hi : HashIndex) (content : Content) : Prop where
  get_eq : ∀ key, get hi key = .ok (content key)
  forEach_eq : ∀ nowNs order, ∃ calls, forEach hi (Time.ofNano nowNs) order = .ok ⟨calls, none⟩ ∧
    Enumerates nowNs content calls

/-- The file opens, and shows the map before or after the write that was under way when the
process stopped.  By then `(count - 2) / 2` writes were complete, and `(count - 1) / 2` begun. -/
def Recovers (bucketCount : UInt64) (writes : List Write) (count : Nat) : Prop :=
  (reopened bucketCount (stoppedFile bucketCount writes count)).res = .ok () ∧
    ∃ content, (content = contentAfter (writes.take ((count - 2) / 2)) ∨
        content = contentAfter (writes.take ((count - 1) / 2))) ∧
      Shows (reopened bucketCount (stoppedFile bucketCount writes count)).state content

/-! ## Writing -/

section Writing

variable {hi : HashIndex} {log : List Record} {w : Write}

/-- Both writes append an entry. -/
theorem Write.run_eq (w : Write) :
    ∃ context addr expiresAt deleted count,
      w.run = appendEntry context w.key addr expiresAt deleted count ∧
      (∀ content, w.apply content =
        Function.update content w.key (if deleted then none else some (addr, expiresAt))) ∧
      ∀ hi stored log, Layout hi stored log →
        0 ≤ (count hi.entryCount).toInt ∧ (count hi.entryCount).toInt ≤ log.length + 1 := by
  cases w with
  | set key addr expiresAt =>
      refine ⟨"hash index set", addr, expiresAt, false, (· + 1), rfl, fun _ => rfl, ?_⟩
      intro hi stored log layout
      have countEq := layout.toInt_add_one
      have nonneg := layout.count_nonneg
      have le := layout.count_le
      dsimp only
      omega
  | delete key =>
      refine ⟨"hash index delete", default, 0, true,
        fun count => if 0 < count then count - 1 else count, rfl, fun _ => rfl, ?_⟩
      intro hi stored log layout
      have nonneg := layout.count_nonneg
      have le := layout.count_le
      have countEq := toInt_deleted nonneg
      dsimp only
      omega

/-- What a write does, by the outcomes of its two file writes. -/
structure Write.Done (w : Write) (hi : HashIndex) (log : List Record) (record : Record)
    (next : HashIndex) : Prop where
  complete : ∀ rest, w.run hi (.complete :: .complete :: rest) = ⟨.ok (), next, rest, false⟩
  layout : Layout next 0 (record :: log)
  newest_eq : newest (record :: log) = w.apply (newest log)
  count_eq : next.bucketCount = hi.bucketCount
  grown : Grown (dataStart hi.bucketCount) next.f (hi.f ++ record.encode)
  length_eq : next.f.length = hi.f.length + w.cost
  unlinked : ∀ rest, ∃ message state, w.run hi (.complete :: .cut 0 :: rest) =
    ⟨.err message, state, rest, true⟩ ∧ state.f = hi.f ++ record.encode
  refused : ∀ rest, ∃ message, w.run hi (.cut 0 :: rest) = ⟨.err message, hi, rest, true⟩

theorem Write.exists_done (layout : Layout hi 0 log) (keyFits : w.key.length ≤ 65535)
    (roomy : hi.f.length + w.cost ≤ File.maxSize) :
    ∃ record next, w.Done hi log record next := by
  rcases w.run_eq with ⟨context, addr, expiresAt, deleted, count, runEq, applyEq, counts⟩
  rcases counts hi 0 log layout with ⟨nonneg, le⟩
  set slot := (fnv64a w.key).toNat % hi.bucketCount with slotDef
  have slotLt : slot < hi.bucketCount := Nat.mod_lt _ layout.bucketCount_pos
  set record := newRecord hi.bucketCount log w.key addr expiresAt deleted with recordDef
  have entryEq : encodeIndexEntry (hi.buckets.getD slot 0) w.key addr expiresAt deleted =
      record.encode := by
    rw [layout.heads slot slotLt]
    rfl
  have fits : hi.writePos + (entryOverhead + w.key.length) ≤ File.maxSize := by
    rw [layout.writePos_eq]
    exact roomy
  have nextLayout : Layout (Index.appended hi slot record.encode (count hi.entryCount)) 0
      (record :: log) := entryEq ▸ layout.appended keyFits fits nonneg le
  refine ⟨record, Index.appended hi slot record.encode (count hi.entryCount), ?_⟩
  exact
    { complete := fun rest => by
        rw [runEq, ← entryEq]
        exact appendEntry_complete layout.usable roomy context count rest
      layout := nextLayout
      newest_eq := (Represents.newest_newRecord ..).trans (applyEq _).symm
      count_eq := rfl
      grown := (layout.torn_unlinked slotLt record.encode _).grown
      length_eq := by
        rw [nextLayout.length_eq, layout.length_eq, Chain.span, Nat.add_comm record.size,
          ← Nat.add_assoc]
        rfl
      unlinked := fun rest => ⟨_, _, by
        rw [runEq]
        exact appendEntry_unlinked layout.usable roomy context count rest,
          congrArg (hi.f ++ ·) entryEq⟩
      refused := fun rest => ⟨_, by
        rw [runEq]
        exact appendEntry_refused layout.usable roomy context count rest⟩ }

end Writing

/-! ## Creating the file -/

/-- The number of buckets of a new file. -/
def bucketsOf (bucketCount : UInt64) : UInt64 :=
  if bucketCount = 0 then defaultBucketCount else bucketCount

/-- The index before its file is created. -/
def blank (count : Nat) (f : Bytes) : HashIndex :=
  ⟨f, [], count, hiHeaderSize, dataStart count, dataStart count, 0, []⟩

/-- The header of a new file. -/
def newHeader (count : Nat) : Bytes :=
  encodeHeader count (dataStart count) 0

section Creating

variable {count : Nat} (roomy : dataStart count ≤ File.maxSize)

theorem newHeader_fits (count : Nat) : 0 + (newHeader count).length ≤ File.maxSize := by
  rw [newHeader, length_encodeHeader]
  decide

theorem writeFile_blank {offset : Nat} {data : Bytes} (fits : offset + data.length ≤ File.maxSize)
    (f : Bytes) (rest : List Fault) :
    writeFile offset data (blank count f) (.complete :: rest) =
      ⟨.ok (), blank count (File.writeAt f offset data), rest, false⟩ :=
  writeFile_complete fits (blank count f) rest

include roomy in
theorem initFile_headed (rest : List Fault) : initFile (blank count []) (.complete :: rest) =
    writeFile hiHeaderSize (List.replicate (count * 8) 0) (blank count (newHeader count)) rest := by
  have written : File.writeAt [] 0 (newHeader count) = newHeader count :=
    File.writeAt_end (show 0 = ([] : Bytes).length from rfl) _
  have notLarge : ¬ File.maxSize < hiHeaderSize + count * 8 := Nat.not_lt.mpr roomy
  have writes := @writeFile_blank count _ _ (newHeader_fits count) [] rest
  rw [written] at writes
  unfold initFile
  rw [Exec.bind_state_apply]
  change (writeFile 0 (newHeader count) >>= fun _ =>
    if File.maxSize < hiHeaderSize + count * 8 then Exec.exhausted "makeslice: len out of range"
    else writeFile hiHeaderSize (List.replicate (count * 8) 0)) _ _ = _
  rw [Exec.bind_of_ok writes, if_neg notLarge]

theorem initFile_refused (rest : List Fault) : initFile (blank count []) (.cut 0 :: rest) =
    ⟨.err "input/output error", blank count [], rest, true⟩ := by
  unfold initFile
  rw [Exec.bind_state_apply]
  exact Exec.bind_of_err (writeFile_refused (newHeader_fits count) _ rest)

/-- A new file. -/
theorem newFile_eq (bucketCount : UInt64) : newFile bucketCount =
    newHeader bucketCount.toNat ++ List.replicate (bucketCount.toNat * 8) 0 :=
  rfl

/-- The index of a new file. -/
def created (count : Nat) : HashIndex :=
  { blank count (newHeader count ++ List.replicate (count * 8) 0) with
    buckets := parseTable count
      (readAt (newHeader count ++ List.replicate (count * 8) 0) hiHeaderSize (count * 8)) }

include roomy in
theorem loadBuckets_created (rest : List Fault) :
    loadBuckets (blank count (newHeader count ++ List.replicate (count * 8) 0)) rest =
      ⟨.ok (), created count, rest, false⟩ := by
  have small : ¬ File.maxSize < count * 8 := by
    unfold dataStart at roomy
    omega
  have long : ¬ (readAt (newHeader count ++ List.replicate (count * 8) 0) hiHeaderSize
      (count * 8)).length < count * 8 := by
    rw [File.length_readAt, List.length_append, List.length_replicate, newHeader,
      length_encodeHeader]
    omega
  unfold loadBuckets
  rw [Exec.bind_state_apply]
  change (if File.maxSize < count * 8 then Exec.exhausted "makeslice: len out of range"
    else if (readAt (newHeader count ++ List.replicate (count * 8) 0) hiHeaderSize
      (count * 8)).length < count * 8 then Exec.throw "EOF"
    else Exec.put (created count)) (blank count _) rest = _
  rw [if_neg small, if_neg long]
  rfl

end Creating

section Opening

variable {bucketCount : UInt64}
  (roomy : dataStart (bucketsOf bucketCount).toNat ≤ File.maxSize)

/-- A new file is created, and its table is loaded. -/
theorem openHashIndex_blank (faults : List Fault) :
    openHashIndex bucketCount (HashIndex.ofFiles [] []) faults =
      (Exec.wrap "init hash index" initFile >>= fun _ =>
        Exec.wrap "load hash index buckets" loadBuckets)
          (blank (bucketsOf bucketCount).toNat []) faults :=
  rfl

include roomy in
theorem openHashIndex_created (rest : List Fault) :
    openHashIndex bucketCount (HashIndex.ofFiles [] []) (.complete :: .complete :: rest) =
      ⟨.ok (), created (bucketsOf bucketCount).toNat, rest, false⟩ := by
  set count := (bucketsOf bucketCount).toNat with countDef
  have headerLength : (newHeader count).length = hiHeaderSize := length_encodeHeader ..
  have tableFits : hiHeaderSize + (List.replicate (count * 8) (0 : UInt8)).length ≤
      File.maxSize := by
    rw [List.length_replicate]
    exact roomy
  have inits : initFile (blank count []) (.complete :: .complete :: rest) =
      ⟨.ok (), blank count (newHeader count ++ List.replicate (count * 8) 0), rest, false⟩ := by
    rw [initFile_headed roomy, writeFile_blank tableFits, File.writeAt_end headerLength.symm]
  rw [openHashIndex_blank, ← countDef, Exec.bind_of_ok (Exec.wrap_of_ok _ inits)]
  exact Exec.wrap_of_ok _ (loadBuckets_created roomy rest)

include roomy in
/-- Nothing of the table gets into the file. -/
theorem openHashIndex_headed (rest : List Fault) :
    ∃ message, openHashIndex bucketCount (HashIndex.ofFiles [] []) (.complete :: .cut 0 :: rest) =
      ⟨.err message, blank (bucketsOf bucketCount).toNat (newHeader (bucketsOf bucketCount).toNat),
        rest, true⟩ := by
  have tableFits : hiHeaderSize + (List.replicate ((bucketsOf bucketCount).toNat * 8)
      (0 : UInt8)).length ≤ File.maxSize := by
    rw [List.length_replicate]
    exact roomy
  have inits := initFile_headed roomy (.cut 0 :: rest)
  rw [writeFile_refused tableFits] at inits
  rw [openHashIndex_blank]
  exact ⟨_, Exec.bind_of_err (Exec.wrap_of_err _ inits)⟩

/-- Nothing gets into the file. -/
theorem openHashIndex_refused (rest : List Fault) :
    ∃ message, openHashIndex bucketCount (HashIndex.ofFiles [] []) (.cut 0 :: rest) =
      ⟨.err message, blank (bucketsOf bucketCount).toNat [], rest, true⟩ := by
  rw [openHashIndex_blank]
  exact ⟨_, Exec.bind_of_err (Exec.wrap_of_err _ (initFile_refused rest))⟩

include roomy in
theorem created_layout : Layout (created (bucketsOf bucketCount).toNat) 0 [] := by
  have opened := openHashIndex_created roomy []
  have opens := @openHashIndex_fresh True (HashIndex.ofFiles [] []) rfl bucketCount fun _ => roomy
  rcases opens.correct _ (congrArg Out.failed opened) with ⟨_, _, layout, _⟩
  rw [opened] at layout
  exact layout

end Opening

/-! ## What is left -/

/-- The file after writes to an index: every write is complete, or the last one has appended its
entry only. -/
inductive Left (before after : Content) : Bytes → Prop
  | whole {hi : HashIndex} {log : List Record} (layout : Layout hi 0 log)
      (shown : newest log = before) (same : after = before) : Left before after hi.f
  | half {hi next : HashIndex} {log : List Record} {record : Record} {w : Write}
      (layout : Layout hi 0 log) (shown : newest log = before)
      (done : w.Done hi log record next) (scanned : newest (record :: log) = after) :
      Left before after (hi.f ++ record.encode)

theorem each_left {writes : List Write} (fits : ∀ w ∈ writes, w.key.length ≤ 65535)
    {hi : HashIndex} {log : List Record} (layout : Layout hi 0 log)
    (roomy : hi.f.length + (writes.map Write.cost).sum ≤ File.maxSize) (count : Nat) :
    Left ((writes.take (count / 2)).foldl Write.apply (newest log))
      ((writes.take ((count + 1) / 2)).foldl Write.apply (newest log))
      (Exec.each writes Write.run hi (stopAfter count)).state.f := by
  induction writes generalizing hi log count with
  | nil =>
      simp only [List.take_nil]
      exact .whole layout rfl rfl
  | cons w writes ih =>
      rw [List.map_cons, List.sum_cons] at roomy
      rcases @Write.exists_done hi log w layout (fits w List.mem_cons_self) (by omega) with
        ⟨record, next, done⟩
      match count with
      | 0 =>
          rcases done.refused [] with ⟨message, refused⟩
          rw [show Exec.each (w :: writes) Write.run hi (stopAfter 0) = _ from
            Exec.bind_of_err refused]
          exact .whole layout rfl rfl
      | 1 =>
          rcases done.unlinked [] with ⟨message, state, unlinked, fileEq⟩
          rw [show Exec.each (w :: writes) Write.run hi (stopAfter 1) = _ from
            Exec.bind_of_err unlinked, fileEq]
          exact .half layout rfl done done.newest_eq
      | count + 2 =>
          have roomLeft : next.f.length + (writes.map Write.cost).sum ≤ File.maxSize := by
            rw [done.length_eq]
            omega
          have left := ih (fun w isWrite => fits w (List.mem_cons_of_mem _ isWrite)) done.layout
            roomLeft count
          rw [done.newest_eq] at left
          rw [show Exec.each (w :: writes) Write.run hi (stopAfter (count + 2)) = _ from
            Exec.bind_of_ok (done.complete (stopAfter count))]
          rw [show (count + 2) / 2 = count / 2 + 1 by omega,
            show (count + 2 + 1) / 2 = (count + 1) / 2 + 1 by omega]
          exact left

/-! ## Opening the file again -/

/-- Calls at the beginning of time tell maps apart. -/
theorem Enumerates.content_eq {content other : Content} {calls : List Visit}
    (enumerates : Enumerates Int64.minValue content calls)
    (others : Enumerates Int64.minValue other calls) : content = other := by
  have live : ∀ expiresAt, ¬ Expired Int64.minValue expiresAt := by
    rintro expiresAt ⟨-, before⟩
    exact absurd (Int64.minValue_le expiresAt) (Int64.not_le.mpr before)
  funext key
  apply Option.ext
  rintro ⟨addr, expiresAt⟩
  have left := enumerates.mem_iff ⟨key, addr, expiresAt⟩
  have right := others.mem_iff ⟨key, addr, expiresAt⟩
  simp only [live, not_false_eq_true, and_true] at left right
  exact left.symm.trans right

theorem Layout.shows {hi : HashIndex} {stored : Int64} {log : List Record}
    (layout : Layout hi stored log) : Shows hi (newest log) :=
  ⟨layout.get_eq, layout.forEach_eq⟩

/-- The index that is opened on a file with an entry behind its chains. -/
def behind (hi : HashIndex) (record : Record) : HashIndex where
  f := hi.f ++ record.encode
  tmp := []
  bucketCount := hi.bucketCount
  bucketBase := hiHeaderSize
  dataBase := hi.dataBase
  writePos := (hi.f ++ record.encode).length
  entryCount := 0
  buckets := hi.buckets

section Behind

variable {hi next : HashIndex} {log : List Record} {record : Record} {w : Write}
  (layout : Layout hi 0 log)

include layout

theorem Layout.reopened_behind (record : Record) (bucketCount : UInt64) :
    (reopened bucketCount (hi.f ++ record.encode)).res = .ok () ∧
      (reopened bucketCount (hi.f ++ record.encode)).state = behind hi record := by
  have contents : (HashIndex.ofFiles (hi.f ++ record.encode) []).f =
      encodeHeader hi.bucketCount hi.dataBase 0 ++
        ((tableBytes hi.buckets ++ dataBytes log) ++ record.encode) := by
    rw [← List.append_assoc, ← layout.contents_eq]
    rfl
  have dataFits : hi.dataBase < 2 ^ 64 := by
    have fits := layout.count_fits
    rw [layout.dataBase_eq]
    unfold File.maxSize at fits
    unfold dataStart hiHeaderSize
    omega
  have long := layout.table_long
  have tableEq : parseTable hi.bucketCount (((tableBytes hi.buckets ++ dataBytes log) ++
      record.encode).take (hi.bucketCount * 8)) = hi.buckets := by
    rw [List.take_append_of_le_length long]
    exact layout.parseTable_eq
  have opens : (openHashIndex bucketCount).Returns True
      (HashIndex.ofFiles (hi.f ++ record.encode) [])
      fun _ opened => opened = behind hi record := by
    refine openHashIndex_existing contents layout.count_fits dataFits
      (by rw [List.length_append]; omega) bucketCount ?_
    rw [tableEq]
    rfl
  rcases opens.correct [] (opens.undisturbed trivial).1 with ⟨_, resEq, stateEq⟩
  exact ⟨resEq, stateEq⟩

/-- `Get` does not find the entry. -/
theorem Layout.get_behind (record : Record) (key : Key) :
    get (behind hi record) key = .ok (newest log key) := by
  have torn : Torn hi { hi with f := hi.f ++ record.encode, tmp := [] } :=
    ⟨rfl, .append _ _ _, by simp⟩
  exact torn.get_eq layout key

/-- `ForEach` visits it. -/
theorem Layout.forEach_behind (done : w.Done hi log record next) (nowNs : Int64)
    (order : RangeOrder Key) :
    ∃ calls, forEach (behind hi record) (Time.ofNano nowNs) order = .ok ⟨calls, none⟩ ∧
      Enumerates nowNs (newest (record :: log)) calls := by
  rcases done.layout.forEachSmall_eq nowNs order with ⟨calls, visitsEq, enumerates⟩
  refine ⟨calls, ?_, enumerates⟩
  have few : (behind hi record).entryCount < forEachThreshold :=
    (by decide : (0 : Int64) < forEachThreshold)
  have startEq : (behind hi record).dataBase = next.dataBase := by
    rw [done.layout.dataBase_eq, done.count_eq]
    exact layout.dataBase_eq
  have endEq : (behind hi record).writePos = next.writePos := by
    have before := layout.length_eq
    have after := done.layout.length_eq
    rw [done.layout.writePos_eq, after, done.count_eq, Chain.span]
    change (hi.f ++ record.encode).length = _
    rw [List.length_append, Record.length_encode, before]
    omega
  rw [forEach, if_pos few, endEq]
  unfold forEachSmall at visitsEq ⊢
  rcases Res.bind_eq_ok.mp visitsEq with ⟨scanned, looped, callsEq⟩
  cases scanned with
  | error cause => cases callsEq
  | ok latest =>
      have inData : dataStart hi.bucketCount ≤ next.dataBase :=
        (done.count_eq ▸ done.layout.dataBase_eq).ge
      rw [startEq, show (behind hi record).f = hi.f ++ record.encode from rfl,
        loop_scanStep_grow done.grown inData looped, Res.ok_bind]
      exact callsEq

end Behind

/-! ## When a file recovers -/

/-- The next process shows one of the two maps if they are the same. -/
theorem Left.recovers_iff {before after : Content} {file : Bytes} (left : Left before after file)
    (bucketCount : UInt64) :
    ((reopened bucketCount file).res = .ok () ∧ ∃ content, (content = before ∨ content = after) ∧
      Shows (reopened bucketCount file).state content) ↔ before = after := by
  cases left with
  | @whole hi log layout shown same =>
      refine ⟨fun _ => same.symm, fun _ => ?_⟩
      have opens := @openHashIndex_layout True hi 0 log (HashIndex.ofFiles hi.f []) layout rfl
        (by simp) (by simp) bucketCount
      rcases opens.correct [] (opens.undisturbed trivial).1 with ⟨_, resEq, opened, _⟩
      exact ⟨resEq, before, .inl rfl, shown ▸ opened.shows⟩
  | @half hi next log record w layout shown done scanned =>
      rcases layout.reopened_behind record bucketCount with ⟨resEq, stateEq⟩
      rw [stateEq]
      constructor
      · rintro ⟨-, content, -, shows⟩
        have found : content = newest log := by
          funext key
          exact Res.ok.inj ((shows.get_eq key).symm.trans (layout.get_behind record key))
        have visited : content = newest (record :: log) := by
          rcases shows.forEach_eq Int64.minValue (.asStored _) with ⟨calls, callsEq, enumerates⟩
          rcases layout.forEach_behind done Int64.minValue (.asStored _) with
            ⟨others, othersEq, enumeratesOthers⟩
          rw [callsEq] at othersEq
          cases othersEq
          exact enumerates.content_eq enumeratesOthers
        rw [← shown, ← scanned, ← found, visited]
      · intro same
        refine ⟨resEq, before, .inl rfl, ?_, ?_⟩
        · intro key
          rw [← shown]
          exact layout.get_behind record key
        · intro nowNs order
          rw [same, ← scanned]
          exact layout.forEach_behind done nowNs order

section Recovery

variable {bucketCount : UInt64} {writes : List Write}

/-- A process that has written nothing. -/
theorem recovers_unwritten (roomy : dataStart (bucketsOf bucketCount).toNat ≤ File.maxSize) :
    Recovers bucketCount writes 0 := by
  rcases @openHashIndex_refused bucketCount [] with ⟨message, refused⟩
  have fileEq : stoppedFile bucketCount writes 0 = [] := by
    unfold stoppedFile build
    rw [show stopAfter 0 = [.cut 0] from rfl, Exec.bind_of_err refused]
    rfl
  have opens := @openHashIndex_fresh True (HashIndex.ofFiles [] []) rfl bucketCount fun _ => roomy
  rcases opens.correct [] (opens.undisturbed trivial).1 with ⟨_, resEq, opened, _⟩
  unfold Recovers
  rw [fileEq]
  exact ⟨resEq, _, .inl rfl, opened.shows⟩

/-- A process that has only written the header. -/
theorem not_recovers_headed (roomy : dataStart (bucketsOf bucketCount).toNat ≤ File.maxSize) :
    ¬ Recovers bucketCount writes 1 := by
  rcases openHashIndex_headed roomy [] with ⟨message, headed⟩
  have headerLength : (newHeader (bucketsOf bucketCount).toNat).length = hiHeaderSize :=
    length_encodeHeader ..
  have fileEq : stoppedFile bucketCount writes 1 =
      (newFile (bucketsOf bucketCount)).take hiHeaderSize := by
    unfold stoppedFile build
    rw [show stopAfter 1 = [.complete, .cut 0] from rfl, Exec.bind_of_err headed]
    exact (List.take_left' headerLength).symm
  have positive : 0 < (bucketsOf bucketCount).toNat := (created_layout roomy).bucketCount_pos
  have incomplete : hiHeaderSize < (newFile (bucketsOf bucketCount)).length := by
    rw [newFile_eq, List.length_append, headerLength, List.length_replicate]
    omega
  rintro ⟨opened, -⟩
  rw [fileEq] at opened
  exact openHashIndex_stops (by decide) incomplete bucketCount [] () opened

/-- A process creates an index, writes to it, and stops after some of its file writes.  The file
recovers unless it has only its header, or an entry that changes the map has no pointer. -/
theorem stopped_recovers_iff (fits : ∀ w ∈ writes, w.key.length ≤ 65535)
    (roomy : dataStart (bucketsOf bucketCount).toNat + (writes.map Write.cost).sum ≤ File.maxSize)
    (count : Nat) :
    Recovers bucketCount writes count ↔ count ≠ 1 ∧
      contentAfter (writes.take ((count - 2) / 2)) =
        contentAfter (writes.take ((count - 1) / 2)) := by
  have roomyTable : dataStart (bucketsOf bucketCount).toNat ≤ File.maxSize := by omega
  match count with
  | 0 => exact iff_of_true (recovers_unwritten roomyTable) ⟨by decide, rfl⟩
  | 1 => exact iff_of_false (not_recovers_headed roomyTable) fun both => both.1 rfl
  | count + 2 =>
      have layout := created_layout roomyTable
      have roomLeft : (created (bucketsOf bucketCount).toNat).f.length +
          (writes.map Write.cost).sum ≤ File.maxSize := by
        rw [layout.length_eq]
        exact roomy
      have left := each_left fits layout roomLeft count
      have fileEq : stoppedFile bucketCount writes (count + 2) =
          (Exec.each writes Write.run (created (bucketsOf bucketCount).toNat)
            (stopAfter count)).state.f := by
        unfold stoppedFile build
        rw [show stopAfter (count + 2) = .complete :: .complete :: stopAfter count from rfl,
          Exec.bind_of_ok (openHashIndex_created roomyTable _)]
      unfold Recovers
      rw [fileEq]
      exact (left.recovers_iff bucketCount).trans (iff_and_self.mpr fun _ => by omega)

end Recovery

/-- A process that stops after its first `Set`. -/
theorem stopped_recovers_iff_oneSet : Recovers 1 [.set [107] ⟨0, 0, 1⟩ 0] 4 :=
  (stopped_recovers_iff (by decide) (by decide) 4).mpr ⟨by decide, rfl⟩

/-- After the header only, the file does not open.  After the entry of the first `Set`, `Get`
finds nothing and `ForEach` visits the entry. -/
theorem stopped_disagree :
    (reopened 1 (stoppedFile 1 [.set [107] ⟨0, 0, 1⟩ 0] 1)).res =
        .err "load hash index buckets: EOF" ∧
      get (reopened 1 (stoppedFile 1 [.set [107] ⟨0, 0, 1⟩ 0] 3)).state [107] = .ok none ∧
      forEach (reopened 1 (stoppedFile 1 [.set [107] ⟨0, 0, 1⟩ 0] 3)).state 0 (.asStored _) =
        .ok ⟨[⟨[107], ⟨0, 0, 1⟩, 0⟩], none⟩ := by
  decide +kernel

end BriseDB.Index
