import BriseDB.Index.Refinement
import BriseDB.Index.Walk

/-!
# The index in memory after failed writes

A write that fails leaves a part of its data in the file.  A part of an entry lies behind
the write position and is overwritten by the next entry; a bucket pointer that was not
written is in the table in memory nevertheless, and the table in the file is not read
again while the index is open.  So an index in which writes have failed still stands for a
map: `Stores hi content` holds whatever the outcome of its writes, as long as keys are
short and `Compact` finds no temporary file.
-/

namespace BriseDB.Index

open Bytes (putLE)
open File (readAt)

/-- The file of `hi` has the data of `clean` in it, an index in which no write has failed.
What is in front of the data and behind it may be anything, and so may the temporary file. -/
structure Torn (clean hi : HashIndex) : Prop where
  same : hi = { clean with f := hi.f, tmp := hi.tmp }
  grown : Grown (dataStart clean.bucketCount) clean.f hi.f
  long : clean.f.length ≤ hi.f.length

/-- The open index stands for `content`. -/
def Stores (hi : HashIndex) (content : Content) : Prop :=
  ∃ clean stored log, Layout clean stored log ∧ newest log = content ∧ Torn clean hi

theorem Torn.refl (hi : HashIndex) : Torn hi hi :=
  ⟨rfl, .refl _ _, le_rfl⟩

theorem Represents.stores {hi : HashIndex} {content : Content}
    (represents : Represents hi content) : Stores hi content := by
  rcases represents with ⟨stored, log, layout, newestEq, _⟩
  exact ⟨hi, stored, log, layout, newestEq, .refl hi⟩

theorem Stores.withTmp {hi : HashIndex} {content : Content} (stores : Stores hi content)
    (tmp : Bytes) : Stores { hi with tmp := tmp } content := by
  rcases stores with ⟨clean, stored, log, layout, newestEq, torn⟩
  refine ⟨clean, stored, log, layout, newestEq, ?_, torn.grown, torn.long⟩
  rw [torn.same]

/-! ## Reading -/

section Reading

variable {clean hi : HashIndex} {stored : Int64} {log : List Record} {contents other : Bytes}
  {base : Nat}

theorem Torn.get_eq (torn : Torn clean hi) (layout : Layout clean stored log) (key : Key) :
    get hi key = .ok (newest log key) := by
  rcases layout.chains with ⟨chain, chains, agree⟩
  have countEq : hi.bucketCount = clean.bucketCount := by rw [torn.same]
  have bucketsEq : hi.buckets = clean.buckets := by rw [torn.same]
  have walk := (chains.walks _ (chains.slot_lt key)).grow torn.grown
  rw [← bucketsEq, ← countEq] at walk
  have nonempty : 0 < hi.f.length := chains.usable.nonempty.trans_le torn.long
  rw [get_of_walk (countEq ▸ layout.bucketCount_pos.ne') nonempty walk, countEq, agree key]

/-- A scan that has met no error goes the same way through a file with the same data. -/
theorem loop_scanStep_grow (grown : Grown base contents other) {writePos fuel pos : Nat}
    {latest table : Table Key LatestEntry} (behind : base ≤ pos)
    (scanned : Res.loop (scanStep contents writePos) fuel (pos, latest) = .ok (.ok table)) :
    Res.loop (scanStep other writePos) fuel (pos, latest) = .ok (.ok table) := by
  induction fuel generalizing pos latest with
  | zero => cases scanned
  | succ fuel ih =>
      by_cases atEnd : writePos ≤ pos ∧ pos < 2 ^ 63
      · have stops : ∀ bytes, scanStep bytes writePos (pos, latest) = .ok (.inr (.ok latest)) :=
          fun _ => by simp only [scanStep, if_pos atEnd]
        rw [Res.loop_stop (stops contents)] at scanned
        rw [Res.loop_stop (stops other), scanned]
      · cases isEntry : readEntryAt contents pos with
        | error cause =>
            have stops : scanStep contents writePos (pos, latest) =
                .ok (.inr (.error s!"hash index ForEach at {pos}: {cause}")) := by
              simp only [scanStep, if_neg atEnd, isEntry]
            rw [Res.loop_stop stops] at scanned
            cases scanned
        | ok e =>
            have goesOn : ∀ bytes, readEntryAt bytes pos = .ok e →
                scanStep bytes writePos (pos, latest) = .ok (.inl (pos + e.size,
                  latest.insert e.key ⟨e.addr, e.expiresAt, e.deleted⟩)) :=
              fun _ found => by simp only [scanStep, if_neg atEnd, found]
            rw [Res.loop_continue (goesOn contents isEntry)] at scanned
            rw [Res.loop_continue (goesOn other (grown.readEntryAt behind isEntry))]
            exact ih (behind.trans (Nat.le_add_right _ _)) scanned

/-- So does a walk along a chain, with as much fuel or more. -/
theorem Walk.loop_chainStep_grow {off : Nat} {entries : List IdxEntry} {nowNs : Int64}
    (walk : Walk contents base off entries) (grown : Grown base contents other)
    {fuel more : Nat} (le : fuel ≤ more) {seen : List Key} {calls : List Visit} {visits : Visits}
    (walked : Res.loop (chainStep contents nowNs) fuel ⟨off, seen, calls⟩ = .ok visits) :
    Res.loop (chainStep other nowNs) more ⟨off, seen, calls⟩ = .ok visits := by
  induction walk generalizing fuel more seen calls with
  | done =>
      rcases fuel with _ | fuel
      · cases walked
      obtain ⟨more, rfl⟩ : ∃ less, more = less + 1 := ⟨more - 1, by omega⟩
      have stops : ∀ bytes, chainStep bytes nowNs ⟨0, seen, calls⟩ = .ok (.inr ⟨calls, none⟩) :=
        fun _ => by simp only [chainStep, if_true]
      rw [Res.loop_stop (stops contents)] at walked
      rw [Res.loop_stop (stops other), walked]
  | @step off e rest positive behind isEntry backwards _ ih =>
      rcases fuel with _ | fuel
      · cases walked
      obtain ⟨more, rfl⟩ : ∃ less, more = less + 1 := ⟨more - 1, by omega⟩
      have goesOn : ∃ nextSeen nextCalls, ∀ bytes, readEntryAt bytes off = .ok e →
          chainStep bytes nowNs ⟨off, seen, calls⟩ = .ok (.inl ⟨e.next, nextSeen, nextCalls⟩) := by
        by_cases known : e.key ∈ seen
        · exact ⟨seen, calls, fun _ found => by
            simp only [chainStep, if_neg positive.ne', found, if_pos known]⟩
        · exact ⟨_, _, fun _ found => by
            simp only [chainStep, if_neg positive.ne', found, if_neg known]
            rfl⟩
      rcases goesOn with ⟨nextSeen, nextCalls, goesOn⟩
      rw [Res.loop_continue (goesOn contents isEntry)] at walked
      rw [Res.loop_continue (goesOn other (grown.readEntryAt behind isEntry))]
      exact ih (Nat.le_of_succ_le_succ le) walked

theorem Torn.forEachSlots_eq (torn : Torn clean hi) (layout : Layout clean stored log)
    {nowNs : Int64} {slots : List Nat} (inRange : ∀ slot ∈ slots, slot < clean.bucketCount)
    {calls : List Visit} (visited : forEachSlots clean nowNs slots = .ok ⟨calls, none⟩) :
    forEachSlots hi nowNs slots = .ok ⟨calls, none⟩ := by
  have bucketsEq : hi.buckets = clean.buckets := by rw [torn.same]
  induction slots generalizing calls with
  | nil => exact visited
  | cons slot rest ih =>
      rcases Res.bind_eq_ok.mp visited with ⟨first, firstEq, restEq⟩
      rcases layout.chains with ⟨chain, chains, _⟩
      have walk := chains.walks slot (inRange slot List.mem_cons_self)
      have sameFirst : forEachSlot hi nowNs slot = .ok first := by
        unfold forEachSlot
        rw [bucketsEq]
        exact walk.loop_chainStep_grow torn.grown (Nat.succ_le_succ torn.long) firstEq
      rw [forEachSlots, sameFirst, Res.ok_bind]
      cases noError : first.error with
      | some cause =>
          simp only [noError] at restEq
          cases restEq
      | none =>
          simp only [noError] at restEq ⊢
          rcases Res.bind_eq_ok.mp restEq with ⟨others, othersEq, callsEq⟩
          obtain ⟨callsEq, othersError⟩ := Visits.mk.inj (Res.ok.inj callsEq)
          have othersSame : others = ⟨others.calls, none⟩ := by rw [← othersError]
          rw [othersSame] at othersEq
          rw [ih (fun other mem => inRange other (List.mem_cons_of_mem _ mem)) othersEq,
            Res.ok_bind, callsEq]
          rfl

theorem Torn.forEach_eq (torn : Torn clean hi) (layout : Layout clean stored log) (nowNs : Int64)
    (order : RangeOrder Key) :
    ∃ calls, forEach hi (Time.ofNano nowNs) order = .ok ⟨calls, none⟩ ∧
      Enumerates nowNs (newest log) calls := by
  rcases layout.forEach_eq nowNs order with ⟨calls, visitsEq, enumerates⟩
  refine ⟨calls, ?_, enumerates⟩
  have entriesEq : hi.entryCount = clean.entryCount := by rw [torn.same]
  have writePosEq : hi.writePos = clean.writePos := by rw [torn.same]
  have dataBaseEq : hi.dataBase = clean.dataBase := by rw [torn.same]
  have countEq : hi.bucketCount = clean.bucketCount := by rw [torn.same]
  unfold forEach at visitsEq ⊢
  rw [entriesEq]
  by_cases few : clean.entryCount < forEachThreshold
  · rw [if_pos few] at visitsEq ⊢
    rw [writePosEq]
    unfold forEachSmall at visitsEq ⊢
    rcases Res.bind_eq_ok.mp visitsEq with ⟨scanned, looped, callsEq⟩
    cases scanned with
    | error cause => cases callsEq
    | ok latest =>
        rw [dataBaseEq, loop_scanStep_grow torn.grown layout.dataBase_eq.ge looped, Res.ok_bind]
        exact callsEq
  · rw [if_neg few] at visitsEq ⊢
    unfold forEachLarge at visitsEq ⊢
    rw [countEq]
    exact torn.forEachSlots_eq layout (fun slot mem => List.mem_range.mp mem) visitsEq

end Reading

/-! ## Writing -/

section Writing

variable {clean hi : HashIndex} {stored : Int64} {log : List Record} {contents other : Bytes}
  {base : Nat}

/-- A write to the index file, however it ends. -/
theorem writeFile_ends (hi : HashIndex) (offset : Nat) (data : Bytes) :
    (writeFile offset data).Ends hi
      (fun _ next => offset + data.length ≤ File.maxSize ∧
        next = { hi with f := File.writeAt hi.f offset data })
      fun next => ∃ count, next = { hi with f := File.writeAt hi.f offset (data.take count) } := by
  have refused : File.writeAt hi.f offset (data.take 0) = hi.f := if_pos (List.take_zero ..)
  intro faults
  unfold writeFile
  rw [Exec.bind_state_apply]
  simp only [bind, Exec.bind, File.write]
  by_cases fits : offset + data.length ≤ File.maxSize
  · rw [if_pos fits]
    rcases faults with _ | ⟨_ | count, rest⟩
    · exact ⟨fits, rfl⟩
    · exact ⟨fits, rfl⟩
    · exact ⟨count, rfl⟩
  · rw [if_neg fits]
    exact ⟨0, by rw [refused]; rfl⟩

/-- What is written behind the data of a file. -/
theorem Grown.writeAt_end (grown : Grown base contents other) (behind : base ≤ contents.length)
    (long : contents.length ≤ other.length) (data : Bytes) :
    ∃ more, (File.writeAt other contents.length data).drop base =
      contents.drop base ++ (data ++ more) := by
  rcases grown with ⟨more, grownEq⟩
  have split : other = other.take base ++ (contents.drop base ++ more) := by
    rw [grownEq, List.take_append_drop]
  have frontLength : (other.take base).length = base := by
    rw [List.length_take]
    omega
  have position : contents.length = (other.take base).length + (contents.drop base).length := by
    rw [frontLength, List.length_drop]
    omega
  have written : File.writeAt other contents.length data =
      other.take base ++ (contents.drop base ++ File.writeAt more 0 data) := by
    conv_lhs => rw [split, position, File.writeAt_append_right]
    congr 1
    exact File.writeAt_append_right _ more 0 data
  have atStart : File.writeAt more 0 data = data ++ more.drop data.length := by
    by_cases empty : data = []
    · simp [File.writeAt, empty]
    · simp [File.writeAt, empty]
  exact ⟨more.drop data.length, by rw [written, atStart, List.drop_left' frontLength]⟩

/-- An entry that was not written completely lies behind the data. -/
theorem Torn.scrap (torn : Torn clean hi) (layout : Layout clean stored log) (data : Bytes) :
    Torn clean { hi with f := File.writeAt hi.f hi.writePos data } := by
  have position : hi.writePos = clean.f.length := by
    rw [torn.same]
    exact layout.writePos_eq
  have behind : dataStart clean.bucketCount ≤ clean.f.length := layout.usable.table
  rcases torn.grown.writeAt_end behind torn.long data with ⟨more, dropEq⟩
  refine ⟨by rw [torn.same], ?_, torn.long.trans (File.length_le_writeAt ..)⟩
  rw [position]
  exact ⟨data ++ more, dropEq.symm⟩

/-- Nor does it matter what becomes of the bucket table in the file, once an entry has been
written. -/
theorem Torn.appended (torn : Torn clean hi) (layout : Layout clean stored log) {slot : Nat}
    (slotLt : slot < clean.bucketCount) (entry : Bytes) (newCount : Int64) {pointer : Bytes}
    (short : pointer.length ≤ 8) :
    Torn (Index.appended clean slot entry newCount)
      { hi with
        f := File.writeAt (File.writeAt hi.f hi.writePos entry) (hi.bucketBase + slot * 8) pointer
        writePos := hi.writePos + entry.length
        entryCount := newCount
        buckets := hi.buckets.set slot hi.writePos } := by
  obtain ⟨f, tmp, rfl⟩ : ∃ f tmp, hi = { clean with f := f, tmp := tmp } :=
    ⟨_, _, torn.same⟩
  have grown : Grown (dataStart clean.bucketCount) clean.f f := torn.grown
  have long : clean.f.length ≤ f.length := torn.long
  have behind : dataStart clean.bucketCount ≤ clean.f.length := layout.usable.table
  have inTable : clean.bucketBase + slot * 8 + 8 ≤ dataStart clean.bucketCount := by
    rw [layout.bucketBase_eq]
    unfold dataStart
    omega
  have pointerLength : (putLE 8 clean.writePos).length = 8 := Bytes.length_putLE ..
  rcases grown.writeAt_end behind long entry with ⟨more, dropEq⟩
  rw [← layout.writePos_eq] at dropEq
  have written := File.length_le_writeAt f clean.writePos entry
  have cleanDrop : (Index.appended clean slot entry newCount).f.drop
      (dataStart clean.bucketCount) = clean.f.drop (dataStart clean.bucketCount) ++ entry := by
    simp only [Index.appended]
    rw [drop_writeAt (by omega) (by rw [List.length_append]; omega),
      List.drop_append_of_le_length behind]
  have tornDrop : (File.writeAt (File.writeAt f clean.writePos entry)
      (clean.bucketBase + slot * 8) pointer).drop (dataStart clean.bucketCount) =
        clean.f.drop (dataStart clean.bucketCount) ++ entry ++ more := by
    rw [drop_writeAt (by omega) (by omega), dropEq, List.append_assoc]
  have cleanLength := congrArg List.length cleanDrop
  have tornLength := congrArg List.length tornDrop
  have table := File.length_le_writeAt (File.writeAt f clean.writePos entry)
    (clean.bucketBase + slot * 8) pointer
  simp only [List.length_append, List.length_drop] at cleanLength tornLength
  refine ⟨rfl, ⟨more, ?_⟩, ?_⟩
  · change (Index.appended clean slot entry newCount).f.drop (dataStart clean.bucketCount) ++ more =
      (File.writeAt (File.writeAt f clean.writePos entry) (clean.bucketBase + slot * 8)
        pointer).drop (dataStart clean.bucketCount)
    rw [cleanDrop, tornDrop]
  · change (Index.appended clean slot entry newCount).f.length ≤
      (File.writeAt (File.writeAt f clean.writePos entry) (clean.bucketBase + slot * 8)
        pointer).length
    omega

/-- Appending an entry, however its two writes end: the newest record is there, or nothing
has changed. -/
theorem Torn.appendEntry_ends (torn : Torn clean hi) (layout : Layout clean stored log) {key : Key}
    (keyFits : key.length ≤ 65535) (addr : NeedleAddr) (expiresAt : Int64) (deleted : Bool)
    (context : String) {count : Int64 → Int64} (nonneg : 0 ≤ (count clean.entryCount).toInt)
    (le : (count clean.entryCount).toInt ≤ log.length + 1) :
    (appendEntry context key addr expiresAt deleted count).Ends hi
      (fun _ next => ∃ changed, Torn changed next ∧ next.tmp = hi.tmp ∧ Layout changed stored
        (newRecord clean.bucketCount log key addr expiresAt deleted :: log))
      fun next => ∃ changed, Torn changed next ∧ next.tmp = hi.tmp ∧
        (Layout changed stored log ∨ Layout changed stored
          (newRecord clean.bucketCount log key addr expiresAt deleted :: log)) := by
  have countEq : hi.bucketCount = clean.bucketCount := by rw [torn.same]
  have bucketsEq : hi.buckets = clean.buckets := by rw [torn.same]
  have entriesEq : hi.entryCount = clean.entryCount := by rw [torn.same]
  have positionEq : hi.writePos = clean.writePos := by rw [torn.same]
  set slot := (fnv64a key).toNat % clean.bucketCount with slotDef
  have slotLt : slot < clean.bucketCount := Nat.mod_lt _ layout.bucketCount_pos
  have slotEq : hashSlot hi key = .ok slot := by
    rw [hashSlot, countEq, if_neg layout.bucketCount_pos.ne']
  set entry := encodeIndexEntry (clean.buckets.getD slot 0) key addr expiresAt deleted with entryDef
  have entryLength : entry.length = entryOverhead + key.length := length_encodeIndexEntry ..
  have published : ∀ pointer : Bytes, pointer.length ≤ 8 →
      Torn (Index.appended clean slot entry (count clean.entryCount))
        { hi with
          f := File.writeAt (File.writeAt hi.f hi.writePos entry) (hi.bucketBase + slot * 8)
            pointer
          writePos := hi.writePos + entry.length
          entryCount := count clean.entryCount
          buckets := hi.buckets.set slot hi.writePos } :=
    fun pointer short => torn.appended layout slotLt entry _ short
  have pointerLength : (putLE 8 hi.writePos).length = 8 := Bytes.length_putLE ..
  unfold appendEntry
  refine .bind_ask slotEq (.bind_state ?_)
  simp only [bucketsEq, entriesEq, ← entryDef]
  refine .bind (.wrap (.mono (writeFile_ends hi hi.writePos entry) (fun _ _ => id) ?_)) ?_
  · rintro _ ⟨_, rfl⟩
    exact ⟨clean, torn.scrap layout _, rfl, .inl layout⟩
  rintro _ _ ⟨fits, rfl⟩
  have newLayout : Layout (Index.appended clean slot entry (count clean.entryCount)) stored
      (newRecord clean.bucketCount log key addr expiresAt deleted :: log) :=
    layout.appended keyFits (by rw [← entryLength, ← positionEq]; exact fits) nonneg le
  refine .bind_modify (.bind_state (.mono (writeFile_ends _ _ _) ?_ ?_))
  · rintro _ _ ⟨_, rfl⟩
    exact ⟨_, bucketsEq ▸ published _ pointerLength.le, rfl, newLayout⟩
  · rintro _ ⟨written, rfl⟩
    refine ⟨_, bucketsEq ▸ published ((putLE 8 hi.writePos).take written) ?_, rfl, .inr newLayout⟩
    rw [List.length_take]
    omega

/-- Appending succeeds unless a write fails. -/
theorem Torn.appendEntry_returns {room : Prop} (torn : Torn clean hi)
    (layout : Layout clean stored log) {key : Key} (addr : NeedleAddr) (expiresAt : Int64)
    (deleted : Bool) (context : String) (count : Int64 → Int64)
    (roomy : room → hi.writePos + (entryOverhead + key.length) ≤ File.maxSize) :
    (appendEntry context key addr expiresAt deleted count).Returns room hi fun _ next =>
      next.writePos = hi.writePos + (entryOverhead + key.length) := by
  have countEq : hi.bucketCount = clean.bucketCount := by rw [torn.same]
  have baseEq : hi.bucketBase = clean.bucketBase := by rw [torn.same]
  set slot := (fnv64a key).toNat % clean.bucketCount with slotDef
  have slotLt : slot < clean.bucketCount := Nat.mod_lt _ layout.bucketCount_pos
  have slotEq : hashSlot hi key = .ok slot := by
    rw [hashSlot, countEq, if_neg layout.bucketCount_pos.ne']
  have entryLength : (encodeIndexEntry (hi.buckets.getD slot 0) key addr expiresAt
      deleted).length = entryOverhead + key.length := length_encodeIndexEntry ..
  unfold appendEntry
  refine .bind_ask slotEq (.bind_state ?_)
  refine .through (fun _ state => state.bucketBase = hi.bucketBase) ?_ ?_
  · exact .wrap (writeFile_returns (by rw [entryLength]; exact roomy) fun _ => rfl)
  intro _ state sameBase
  refine .bind_modify (.bind_state (writeFile_returns (fun _ => ?_)
    fun _ => congrArg (hi.writePos + ·) entryLength))
  change state.bucketBase + slot * 8 + (putLE 8 hi.writePos).length ≤ File.maxSize
  rw [sameBase, baseEq]
  exact (layout.usable.slot_inside slotLt _).trans layout.within

theorem Layout.torn_unlinked (layout : Layout hi stored log) {slot : Nat}
    (slotLt : slot < hi.bucketCount) (entry : Bytes) (newCount : Int64) :
    Torn (Index.appended hi slot entry newCount) (unlinked hi slot entry newCount) := by
  have noPointer : ([] : Bytes).length ≤ 8 := Nat.zero_le 8
  have torn := (Torn.refl hi).appended layout slotLt entry newCount noPointer
  rwa [File.writeAt_end layout.usable.writePos_eq] at torn

end Writing

/-! ## The map in memory -/

namespace Stores

variable {hi : HashIndex} {content : Content}

theorem get_eq (stores : Stores hi content) (key : Key) : get hi key = .ok (content key) := by
  rcases stores with ⟨_, _, _, layout, rfl, torn⟩
  exact torn.get_eq layout key

theorem key_fits (stores : Stores hi content) {key : Key} {entry : NeedleAddr × Int64}
    (found : content key = some entry) : key.length ≤ 65535 := by
  rcases stores with ⟨_, _, _, layout, rfl, _⟩
  exact key_fits_of_newest layout found

theorem forEach_eq (stores : Stores hi content) (nowNs : Int64) (order : RangeOrder Key) :
    ∃ calls, forEach hi (Time.ofNano nowNs) order = .ok ⟨calls, none⟩ ∧
      Enumerates nowNs content calls := by
  rcases stores with ⟨_, _, _, layout, rfl, torn⟩
  exact torn.forEach_eq layout nowNs order

/-- Appending an entry: unless both writes succeed, the map may or may not have changed. -/
theorem appendEntry_ends (stores : Stores hi content) {key : Key} (keyFits : key.length ≤ 65535)
    (addr : NeedleAddr) (expiresAt : Int64) (deleted : Bool) (context : String)
    {count : Int64 → Int64}
    (counts : ∀ clean stored log, Layout clean stored log →
      0 ≤ (count clean.entryCount).toInt ∧ (count clean.entryCount).toInt ≤ log.length + 1) :
    (appendEntry context key addr expiresAt deleted count).Ends hi
      (fun _ next => next.tmp = hi.tmp ∧ Stores next
        (Function.update content key (if deleted then none else some (addr, expiresAt))))
      fun next => next.tmp = hi.tmp ∧ (Stores next content ∨ Stores next
        (Function.update content key (if deleted then none else some (addr, expiresAt)))) := by
  rcases stores with ⟨clean, stored, log, layout, rfl, torn⟩
  have newestEq := Represents.newest_newRecord clean.bucketCount log key addr expiresAt deleted
  rcases counts clean stored log layout with ⟨nonneg, le⟩
  refine .mono (torn.appendEntry_ends layout keyFits addr expiresAt deleted context nonneg le) ?_ ?_
  · rintro _ next ⟨changed, nextTorn, tmpEq, nextLayout⟩
    exact ⟨tmpEq, changed, stored, _, nextLayout, newestEq, nextTorn⟩
  · rintro next ⟨changed, nextTorn, tmpEq, unchanged | nextLayout⟩
    · exact ⟨tmpEq, .inl ⟨changed, stored, _, unchanged, rfl, nextTorn⟩⟩
    · exact ⟨tmpEq, .inr ⟨changed, stored, _, nextLayout, newestEq, nextTorn⟩⟩

/-- `Set`, however its writes end. -/
theorem set_ends (stores : Stores hi content) {key : Key} (keyFits : key.length ≤ 65535)
    (addr : NeedleAddr) (expiresAt : Int64) :
    (set key addr expiresAt).Ends hi
      (fun _ next => next.tmp = hi.tmp ∧
        Stores next (Function.update content key (some (addr, expiresAt))))
      fun next => next.tmp = hi.tmp ∧ (Stores next content ∨
        Stores next (Function.update content key (some (addr, expiresAt)))) := by
  refine stores.appendEntry_ends keyFits addr expiresAt false _ ?_
  intro clean stored log layout
  have countEq := layout.toInt_add_one
  have nonneg := layout.count_nonneg
  have le := layout.count_le
  omega

/-- `Set` enters the key unless a write fails. -/
theorem set_returns (stores : Stores hi content) {key : Key} (keyFits : key.length ≤ 65535)
    (addr : NeedleAddr) (expiresAt : Int64) :
    (set key addr expiresAt).Returns False hi fun _ next =>
      Stores next (Function.update content key (some (addr, expiresAt))) := by
  have ends := stores.set_ends keyFits addr expiresAt
  rcases stores with ⟨clean, stored, log, layout, rfl, torn⟩
  refine .mono (.and_ends
    (torn.appendEntry_returns layout addr expiresAt false _ _ False.elim) ends) ?_
  rintro _ next ⟨_, _, after⟩
  exact after

/-- `Delete`, however its writes end. -/
theorem delete_ends (stores : Stores hi content) {key : Key} (keyFits : key.length ≤ 65535) :
    (delete key).Ends hi
      (fun _ next => next.tmp = hi.tmp ∧ Stores next (Function.update content key none))
      fun next => next.tmp = hi.tmp ∧ (Stores next content ∨
        Stores next (Function.update content key none)) := by
  refine stores.appendEntry_ends keyFits default 0 true _ ?_
  intro clean stored log layout
  have nonneg := layout.count_nonneg
  have le := layout.count_le
  have countEq := toInt_deleted nonneg
  omega

/-- `Delete` removes the key unless a write fails. -/
theorem delete_returns {room : Prop} (stores : Stores hi content) {key : Key}
    (keyFits : key.length ≤ 65535)
    (roomy : room → hi.writePos + (entryOverhead + key.length) ≤ File.maxSize) :
    (delete key).Returns room hi fun _ next =>
      next.writePos = hi.writePos + (entryOverhead + key.length) ∧
        Stores next (Function.update content key none) := by
  have ends := stores.delete_ends keyFits
  rcases stores with ⟨clean, stored, log, layout, rfl, torn⟩
  refine .mono (.and_ends (torn.appendEntry_returns layout default 0 true _ _ roomy) ends) ?_
  rintro _ next ⟨positionEq, _, after⟩
  exact ⟨positionEq, after⟩

/-- `Compact`, however its writes end. -/
theorem compact_ends (stores : Stores hi content) (noTmp : hi.tmp = []) (nowNs : Int64)
    (order : RangeOrder Key) :
    (compact (Time.ofNano nowNs) order).Ends hi
      (fun _ next => Stores next (prune nowNs content)) fun next => Stores next content := by
  have whole := stores
  rcases stores with ⟨clean, stored, log, layout, rfl, torn⟩
  rcases torn.forEach_eq layout nowNs order with ⟨calls, visitsEq, enumerates⟩
  have entriesEq : hi.entryCount = clean.entryCount := by rw [torn.same]
  have fits : ∀ visit ∈ calls, visit.key.length ≤ 65535 := fun visit mem =>
    key_fits_of_newest layout ((enumerates.mem_iff visit).mp mem).1
  have steps := @fresh_steps hi False nowNs (newest log) calls
    (entriesEq ▸ layout.compactBuckets_ne_zero) noTmp enumerates fits False.elim
  refine .mono (steps.ends (fun tmp => (forEach_tmp hi tmp _ order).trans visitsEq) ?_) ?_ ?_
  · rintro closed ⟨_, _, closedLayout, closedCount, _⟩
    rw [← closedCount]
    exact closedLayout.count_fits
  · rintro _ next ⟨newStored, newLog, nextLayout, _, newestEq, _⟩
    exact ⟨next, newStored, newLog, nextLayout, newestEq, .refl next⟩
  · rintro _ ⟨tmp, rfl⟩
    exact whole.withTmp tmp

end Stores

end BriseDB.Index
