import BriseDB.Base.Smear
import BriseDB.Index.Failures
import BriseDB.Index.Visits

/-!
# Compaction keeps the live entries

`Compact` writes the visited entries into a fresh file and loads it.  The new
index says about a key what the old one said, unless the entry has expired.
-/

namespace BriseDB.Index

/-- The entries that compaction keeps. -/
def prune (nowNs : Int64) (content : Key → Option (NeedleAddr × Int64)) (key : Key) :
    Option (NeedleAddr × Int64) :=
  (content key).filter fun entry => ¬ Expired nowNs entry.2

theorem prune_eq_some {nowNs : Int64} {content : Key → Option (NeedleAddr × Int64)} {key : Key}
    {entry : NeedleAddr × Int64} :
    prune nowNs content key = some entry ↔ content key = some entry ∧ ¬ Expired nowNs entry.2 := by
  simp [prune, Option.filter_eq_some_iff]

/-! ## The size of the new table -/

theorem toNat_double {entryCount : Int64} (nonneg : 0 ≤ entryCount.toInt)
    (small : entryCount.toInt < 2 ^ 62) :
    (entryCount.toUInt64 * 2).toNat = 2 * entryCount.toInt.toNat := by
  have unsigned : entryCount.toUInt64.toNat = entryCount.toInt.toNat := by
    rw [Int64.toNat_toUInt64_of_le (Int64.le_iff_toInt_le.mpr nonneg), Int64.toNat_toInt]
  rw [UInt64.toNat_mul, unsigned, Nat.mul_comm]
  exact Nat.mod_eq_of_lt (show 2 * entryCount.toInt.toNat < 2 ^ 64 by omega)

/-- A small index is compacted into a table of the default size. -/
theorem compactBuckets_of_le {entryCount : Int64} (nonneg : 0 ≤ entryCount.toInt)
    (small : entryCount.toInt ≤ 2 ^ 19) : compactBuckets entryCount = defaultBucketCount := by
  unfold compactBuckets
  refine if_neg fun large => ?_
  have less := UInt64.lt_iff_toNat_lt.mp large
  rw [toNat_double nonneg (by omega)] at less
  change 1048576 < _ at less
  omega

/-- A large index is compacted into a table with the least power of two of buckets that is
not below twice the entry count. -/
theorem compactBuckets_of_lt {entryCount : Int64} (nonneg : 0 ≤ entryCount.toInt)
    (small : entryCount.toInt < 2 ^ 62) (large : 2 ^ 19 < entryCount.toInt) :
    ∃ exponent, (compactBuckets entryCount).toNat = 2 ^ exponent ∧
      2 * entryCount.toInt.toNat ≤ 2 ^ exponent ∧
      ∀ other, 2 * entryCount.toInt.toNat ≤ 2 ^ other → exponent ≤ other := by
  have doubled := toNat_double nonneg small
  have rounds : Smear.doublings 6 =
      ([1, 2, 4, 8, 16, 32] : List UInt64).map UInt64.toNat := by decide
  have inWord : ∀ shift ∈ ([1, 2, 4, 8, 16, 32] : List UInt64), shift < 64 := by
    simp only [List.forall_mem_cons, List.not_mem_nil, false_imp_iff, implies_true, and_true]
    decide
  rcases @Smear.smear_pred_add_one 6 (2 * entryCount.toInt.toNat) (by omega) (by omega) with
    ⟨exponent, roundedEq, most, least⟩
  refine ⟨exponent, ?_, most, least⟩
  have exceeds : defaultBucketCount < entryCount.toUInt64 * 2 := by
    rw [UInt64.lt_iff_toNat_lt, doubled]
    change 1048576 < _
    omega
  have positive : 1 ≤ entryCount.toUInt64 * 2 :=
    UInt64.le_of_lt (UInt64.lt_of_le_of_lt (by decide : 1 ≤ defaultBucketCount) exceeds)
  -- rounding up stops at 2 ^ 63, so adding one does not wrap around
  have noWrap : 2 ^ exponent < 2 ^ 64 := by
    refine Nat.pow_lt_pow_right (by decide) (Nat.lt_succ_of_le (least 63 ?_))
    omega
  unfold compactBuckets
  rw [if_pos exceeds, UInt64.toNat_add, Smear.toNat_foldl _ inWord, ← rounds,
    UInt64.toNat_sub_of_le _ _ positive, doubled]
  change (Smear.smear (Smear.doublings 6) (2 * entryCount.toInt.toNat - 1) + 1) % 2 ^ 64 = _
  rw [roundedEq, Nat.mod_eq_of_lt noWrap]

/-- The new table has buckets as long as the entry count does not reach the
range where rounding up to a power of two overflows. -/
theorem compactBuckets_ne_zero {entryCount : Int64} (nonneg : 0 ≤ entryCount.toInt)
    (small : entryCount.toInt < 2 ^ 62) : compactBuckets entryCount ≠ 0 := by
  by_cases large : 2 ^ 19 < entryCount.toInt
  · rcases compactBuckets_of_lt nonneg small large with ⟨exponent, sizeEq, -, -⟩
    intro isZero
    rw [isZero] at sizeEq
    exact absurd sizeEq.symm (Nat.two_pow_pos exponent).ne'
  · rw [compactBuckets_of_le nonneg (not_lt.mp large)]
    decide

/-- The size of the new table is a power of two, at least the default and at least twice the
entry count, and the least such power when the default is too small. -/
theorem compactBuckets_powerOfTwo {entryCount : Int64} (nonneg : 0 ≤ entryCount.toInt)
    (small : entryCount.toInt < 2 ^ 62) :
    ∃ exponent, (compactBuckets entryCount).toNat = 2 ^ exponent ∧
      defaultBucketCount ≤ compactBuckets entryCount ∧
      2 * entryCount.toInt ≤ (compactBuckets entryCount).toNat ∧
      ((defaultBucketCount.toNat : Int) < 2 * entryCount.toInt →
        ∀ other : Nat, 2 * entryCount.toInt ≤ 2 ^ other →
          (compactBuckets entryCount).toNat ≤ 2 ^ other) := by
  have defaultEq : defaultBucketCount.toNat = 2 ^ 20 := by decide
  by_cases large : 2 ^ 19 < entryCount.toInt
  · rcases compactBuckets_of_lt nonneg small large with ⟨exponent, sizeEq, most, least⟩
    refine ⟨exponent, sizeEq, ?_, ?_, ?_⟩
    · rw [UInt64.le_iff_toNat_le, defaultEq, sizeEq]
      omega
    · rw [sizeEq]
      omega
    · intro _ other le
      rw [sizeEq]
      refine Nat.pow_le_pow_right (by decide) (least other ?_)
      have le' : 2 * entryCount.toInt ≤ ((2 ^ other : Nat) : Int) := by exact_mod_cast le
      omega
  · rw [compactBuckets_of_le nonneg (not_lt.mp large), defaultEq]
    refine ⟨20, rfl, UInt64.le_refl _, ?_, ?_⟩
    · push_cast
      omega
    · intro exceeds
      push_cast at exceeds
      omega

/-- Three million entries. -/
theorem compactBuckets_powerOfTwo_threeMillion :
    ∃ exponent, (compactBuckets 3000000).toNat = 2 ^ exponent ∧
      defaultBucketCount ≤ compactBuckets 3000000 ∧
      2 * (3000000 : Int64).toInt ≤ (compactBuckets 3000000).toNat ∧
      ((defaultBucketCount.toNat : Int) < 2 * (3000000 : Int64).toInt →
        ∀ other : Nat, 2 * (3000000 : Int64).toInt ≤ 2 ^ other →
          (compactBuckets 3000000).toNat ≤ 2 ^ other) :=
  compactBuckets_powerOfTwo (by decide) (by decide)

/-! ## Filling the new file -/

section Compact

variable {hi : HashIndex} {stored : Int64} {log : List Record} {room : Prop}

/-- The bytes that the entries of the given calls take. -/
def visitBytes (calls : List Visit) : Nat :=
  (calls.map fun visit => entryOverhead + visit.key.length).sum

theorem key_fits_of_newest (layout : Layout hi stored log) {key : Key}
    {entry : NeedleAddr × Int64} (found : newest log key = some entry) : key.length ≤ 65535 := by
  obtain ⟨record, recordFound, _⟩ := Option.bind_eq_some_iff.mp found
  have sameKey : record.key = key := by simpa using List.find?_some recordFound
  exact sameKey ▸ layout.keys_fit record (List.mem_of_find?_eq_some recordFound)

/-- The state of the new index after the callback has run for `calls`. -/
structure Filled (bucketCount : Nat) (calls : List Visit) (next : HashIndex)
    (log : List Record) : Prop where
  layout : Layout next 0 log
  bucketCount_eq : next.bucketCount = bucketCount
  count_eq : next.entryCount.toInt = calls.length
  span_eq : Chain.span Record.size log = visitBytes calls
  stored : ∀ visit ∈ calls, newest log visit.key = some (visit.addr, visit.expiresAt)
  absent : ∀ key, key ∉ calls.map Visit.key → newest log key = none

/-- Streaming the visited entries into a fresh index. -/
theorem fill_returns {bucketCount : Nat} {calls : List Visit}
    (nodup : (calls.map Visit.key).Nodup) (fit : ∀ visit ∈ calls, visit.key.length ≤ 65535)
    (fresh : Layout hi 0 []) (sameCount : hi.bucketCount = bucketCount)
    (noEntries : hi.entryCount = 0)
    (roomy : room → dataStart bucketCount + visitBytes calls ≤ File.maxSize) :
    (Exec.each calls fun visit => set visit.key visit.addr visit.expiresAt).Returns room hi
      fun _ next => ∃ log, Filled bucketCount calls next log := by
  refine .each (fun done next => ∃ log, Filled bucketCount done next log) ?_ ?_
  · rintro before visit after next split ⟨log, filled⟩
    have visitFits : visit.key.length ≤ 65535 := fit visit (by simp [split])
    have unseen : visit.key ∉ before.map Visit.key := by
      rw [split, List.map_append, List.map_cons, List.nodup_append] at nodup
      exact fun mem => nodup.2.2 _ mem _ List.mem_cons_self rfl
    have enough : room → next.f.length + (entryOverhead + visit.key.length) ≤ File.maxSize := by
      intro isRoom
      have total := roomy isRoom
      rw [filled.layout.length_eq, filled.bucketCount_eq, filled.span_eq]
      rw [split] at total
      simp only [visitBytes, List.map_append, List.map_cons, List.sum_append,
        List.sum_cons] at total ⊢
      omega
    refine .mono (set_returns filled.layout visitFits enough) ?_
    rintro _ last ⟨lastLayout, countEq, _, lastCount⟩
    refine ⟨_, lastLayout, lastCount.trans filled.bucketCount_eq, ?_, ?_, ?_, ?_⟩
    · rw [countEq, filled.count_eq]
      simp
    · rw [Chain.span, filled.span_eq]
      simp only [visitBytes, List.map_append, List.sum_append, List.map_cons, List.map_nil,
        List.sum_cons, List.sum_nil]
      exact Nat.add_comm _ _
    · intro other mem
      rw [newest_cons]
      rcases List.mem_append.mp mem with earlier | last
      · have different : visit.key ≠ other.key := fun same =>
          unseen (same ▸ List.mem_map_of_mem earlier)
        rw [if_neg (show (newRecord _ _ _ _ _ _).key ≠ _ from different)]
        exact filled.stored other earlier
      · rw [List.mem_singleton.mp last]
        exact if_pos rfl
    · intro key notMem
      rw [List.map_append, List.mem_append, not_or] at notMem
      have different : visit.key ≠ key := fun same => notMem.2 (by simp [same])
      rw [newest_cons, if_neg (show (newRecord _ _ _ _ _ _).key ≠ _ from different)]
      exact filled.absent key notMem.1
  · exact ⟨[], fresh, sameCount, by simp [noEntries], rfl, by simp, fun _ _ => rfl⟩

/-- A filled index holds what compaction keeps. -/
theorem Filled.newest_eq {nowNs : Int64} {content : Key → Option (NeedleAddr × Int64)}
    {calls : List Visit} {bucketCount : Nat} {next : HashIndex} {log : List Record}
    (filled : Filled bucketCount calls next log) (enumerates : Enumerates nowNs content calls) :
    newest log = prune nowNs content := by
  funext key
  by_cases visited : key ∈ calls.map Visit.key
  · obtain ⟨visit, mem, rfl⟩ := List.mem_map.mp visited
    rw [filled.stored visit mem]
    exact (prune_eq_some.mpr ((enumerates.mem_iff visit).mp mem)).symm
  · rw [filled.absent key visited]
    cases kept : prune nowNs content key with
    | none => rfl
    | some entry =>
        have mem : (⟨key, entry.1, entry.2⟩ : Visit) ∈ calls :=
          (enumerates.mem_iff _).mpr (prune_eq_some.mp kept)
        exact absurd (List.mem_map_of_mem mem) visited

/-- The temporary file does not matter to the iteration. -/
theorem forEach_tmp (hi : HashIndex) (tmp : Bytes) (now : Time) (order : RangeOrder Key) :
    forEach { hi with tmp := tmp } now order = forEach hi now order := by
  have sameSlots : ∀ nowNs slots,
      forEachSlots { hi with tmp := tmp } nowNs slots = forEachSlots hi nowNs slots := by
    intro nowNs slots
    induction slots with
    | nil => rfl
    | cons slot rest ih =>
        rw [forEachSlots, forEachSlots, ih]
        rfl
  unfold forEach forEachLarge
  rw [sameSlots]
  rfl

/-- The table that replaces the one in memory: its size is the one that `Compact` has
computed, whatever the new file says. -/
def adopted (hi closed : HashIndex) (newBuckets : UInt64) (liveCount : Nat) : HashIndex :=
  { hi with
    f := closed.f
    tmp := []
    bucketCount := newBuckets.toNat
    dataBase := hiHeaderSize + newBuckets.toNat * 8
    bucketBase := hiHeaderSize
    writePos := closed.f.length
    entryCount := Int64.ofNat liveCount }

theorem adopted_bucketCount (hi closed : HashIndex) (newBuckets : UInt64) (liveCount : Nat) :
    (adopted hi closed newBuckets liveCount).bucketCount = newBuckets.toNat :=
  rfl

/-- What the steps of `Compact` establish: it opens the temporary file, fills it with the
visited entries, closes it and loads the bucket table. -/
structure Steps (hi : HashIndex) (room : Prop) (calls : List Visit)
    (isOpened isFilled isClosed : HashIndex → Prop) (post : Unit → HashIndex → Prop) : Prop where
  opens : (openHashIndex (compactBuckets hi.entryCount)).Delivers room
    (HashIndex.ofFiles hi.tmp []) fun _ => isOpened
  fills : ∀ opened, isOpened opened → (Exec.each calls fun visit =>
    set visit.key visit.addr visit.expiresAt).Delivers room opened fun _ => isFilled
  closes : ∀ filled, isFilled filled → close.Delivers room filled fun _ => isClosed
  noError : ∀ filled, isFilled filled → ∀ faults, (close filled faults).res = .ok ()
  loads : ∀ closed, isClosed closed → loadBuckets.Delivers room
    (adopted hi closed (compactBuckets hi.entryCount) calls.length) post

section Steps

variable {now : Time} {order : RangeOrder Key} {calls : List Visit}
  {isOpened isFilled isClosed : HashIndex → Prop} {post : Unit → HashIndex → Prop}

/-- `Compact` returns nil only if each of the steps succeeds, but it does not notice that
`Close` could not write the header. -/
theorem Steps.delivers (steps : Steps hi room calls isOpened isFilled isClosed post)
    (visits : ∀ tmp, forEach { hi with tmp := tmp } now order = .ok ⟨calls, none⟩) :
    (compact now order).Delivers room hi post := by
  unfold compact
  refine .bind_state (.bind_runOn steps.opens ?_ ?_)
  · exact fun _ _ _ _ => .bind_modify (.throw _)
  intro _ opened openedHolds
  refine .bind_modify (.bind_ask (visits _) ?_)
  refine .bind_runOn (steps.fills opened openedHolds) ?_ ?_
  · exact fun _ _ _ _ => .bind_modify (.throw _)
  intro _ filled filledHolds
  refine .bind_runOn (steps.closes filled filledHolds) ?_ ?_
  · intro faults _ cause isErr
    rw [steps.noError filled filledHolds faults] at isErr
    cases isErr
  intro _ closed closedHolds
  exact .bind_modify (.wrap (steps.loads closed closedHolds))

/-- A `Compact` that ends in any other way leaves the index as it was, apart from the
temporary file. -/
theorem Steps.ends (steps : Steps hi room calls isOpened isFilled isClosed post)
    (visits : ∀ tmp, forEach { hi with tmp := tmp } now order = .ok ⟨calls, none⟩)
    (tableFits : ∀ closed, isClosed closed →
      (compactBuckets hi.entryCount).toNat * 8 ≤ File.maxSize) :
    (compact now order).Ends hi post fun next => ∃ tmp, next = { hi with tmp := tmp } := by
  have kept : ∀ tmp, ∃ other, { hi with tmp := tmp } = { hi with tmp := other } :=
    fun tmp => ⟨tmp, rfl⟩
  have closed : ∀ filled, isFilled filled →
      close.Ends filled (fun _ => isClosed) fun _ => False := by
    intro filled filledHolds faults
    have returned := steps.noError filled filledHolds faults
    rw [returned]
    exact (steps.closes filled filledHolds).sound faults () returned
  have loaded : ∀ closed, isClosed closed → loadBuckets.Ends
      (adopted hi closed (compactBuckets hi.entryCount) calls.length) post
      fun next => ∃ tmp, next = { hi with tmp := tmp } := by
    intro closed closedHolds faults
    have fits : (adopted hi closed (compactBuckets hi.entryCount) calls.length).bucketCount * 8 ≤
        File.maxSize := by
      rw [adopted_bucketCount]
      exact tableFits closed closedHolds
    rcases (steps.loads closed closedHolds).clean faults (loadBuckets_failed fits faults) with
      ⟨_, returned⟩
    rw [returned]
    exact (steps.loads closed closedHolds).sound faults () returned
  unfold compact
  refine .bind_state (.bind_runOn steps.opens.ends (kept hi.tmp) ?_ ?_)
  · exact fun _ opened _ => .bind_modify (.throw (kept opened.f))
  intro _ opened openedHolds
  refine .bind_modify (.bind_ask (visits _) ?_)
  refine .bind_runOn (steps.fills opened openedHolds).ends (kept opened.f) ?_ ?_
  · exact fun _ filled _ => .bind_modify (.throw (kept []))
  intro _ filled filledHolds
  refine .bind_runOn (closed filled filledHolds) (kept opened.f)
    (fun _ _ impossible => impossible.elim) ?_
  intro _ written writtenHolds
  exact .bind_modify (.wrap (loaded written writtenHolds))

end Steps

theorem Layout.compactBuckets_ne_zero (layout : Layout hi stored log) :
    compactBuckets hi.entryCount ≠ 0 := by
  have size := length_le_span log
  have total := layout.length_eq
  have within := layout.within
  have le := layout.count_le
  unfold File.maxSize at within
  exact Index.compactBuckets_ne_zero layout.count_nonneg (by omega)

/-- The new file has been closed. -/
def Closed (hi : HashIndex) (nowNs : Int64) (content : Key → Option (NeedleAddr × Int64))
    (calls : List Visit) (closed : HashIndex) : Prop :=
  ∃ newStored newLog, Layout closed newStored newLog ∧
    closed.bucketCount = (compactBuckets hi.entryCount).toNat ∧
    closed.entryCount.toInt = calls.length ∧ Chain.span Record.size newLog = visitBytes calls ∧
    newest newLog = prune nowNs content

/-- The steps of `Compact` when there is no temporary file yet. -/
theorem fresh_steps {nowNs : Int64} {content : Key → Option (NeedleAddr × Int64)}
    {calls : List Visit} (nonzero : compactBuckets hi.entryCount ≠ 0) (noTmp : hi.tmp = [])
    (enumerates : Enumerates nowNs content calls)
    (fits : ∀ visit ∈ calls, visit.key.length ≤ 65535)
    (roomy : room →
      dataStart (compactBuckets hi.entryCount).toNat + visitBytes calls ≤ File.maxSize) :
    Steps hi room calls
      (fun opened => Layout opened 0 [] ∧ opened.entryCount = 0 ∧
        opened.bucketCount = (compactBuckets hi.entryCount).toNat)
      (fun filled => ∃ newLog, Filled (compactBuckets hi.entryCount).toNat calls filled newLog)
      (Closed hi nowNs content calls)
      fun _ next => ∃ newStored newLog, Layout next newStored newLog ∧ next.tmp = [] ∧
        newest newLog = prune nowNs content ∧ next.entryCount.toInt = calls.length ∧
        next.f.length = dataStart (compactBuckets hi.entryCount).toNat + visitBytes calls := by
  set newBuckets := compactBuckets hi.entryCount with newBucketsDef
  have openRoom : room → dataStart (if newBuckets = 0 then defaultBucketCount
      else newBuckets).toNat ≤ File.maxSize := by
    intro isRoom
    rw [if_neg nonzero]
    exact (Nat.le_add_right _ _).trans (roomy isRoom)
  refine ⟨?_, ?_, ?_, ?_, ?_⟩
  · refine .mono (.of_returns (openHashIndex_fresh noTmp _ openRoom) (openHashIndex_reports _)) ?_
    rintro _ opened ⟨fresh, noEntries, _, openedCount⟩
    rw [if_neg nonzero] at openedCount
    exact ⟨fresh, noEntries, openedCount⟩
  · rintro opened ⟨fresh, noEntries, openedCount⟩
    exact .of_returns (fill_returns enumerates.nodup fits fresh openedCount noEntries roomy)
      (.each fun _ => appendEntry_reports _ _ _ _ _ _)
  · rintro filled ⟨newLog, isFilled⟩
    refine .mono (close_delivers isFilled.layout) ?_
    rintro _ closed ⟨newStored, closedLayout, closedEntries, _, closedCount⟩
    exact ⟨newStored, newLog, closedLayout, closedCount.trans isFilled.bucketCount_eq,
      by rw [closedEntries]; exact isFilled.count_eq, isFilled.span_eq,
      isFilled.newest_eq enumerates⟩
  · rintro filled ⟨newLog, isFilled⟩ faults
    exact (close_state isFilled.layout.contents_eq faults).1
  · rintro closed ⟨newStored, newLog, closedLayout, countEq, entriesEq, spanEq, newestEq⟩
    have sameEntries : Int64.ofNat calls.length = closed.entryCount := by
      rw [← Int64.ofInt_toInt closed.entryCount, entriesEq]
      rfl
    refine .mono (.of_returns
      (loadBuckets_layout closedLayout rfl countEq.symm rfl) loadBuckets_reports) ?_
    rintro _ _ rfl
    refine ⟨newStored, newLog, ?_, rfl, newestEq, ?_, ?_⟩
    · unfold adopted
      rw [← countEq, sameEntries]
      exact
        { bucketCount_pos := closedLayout.bucketCount_pos
          bucketBase_eq := rfl
          dataBase_eq := rfl
          buckets_length := closedLayout.buckets_length
          contents_eq := by
            have contents := closedLayout.contents_eq
            rw [closedLayout.dataBase_eq] at contents
            exact contents
          writePos_eq := rfl
          within := closedLayout.within
          heads := closedLayout.heads
          linked := closedLayout.linked
          keys_fit := closedLayout.keys_fit
          count_nonneg := closedLayout.count_nonneg
          count_le := closedLayout.count_le }
    · change (Int64.ofNat calls.length).toInt = _
      rw [sameEntries]
      exact entriesEq
    · rw [← spanEq, ← countEq]
      exact closedLayout.length_eq

/-- `Compact` leaves an index that holds the entries which are live at the instant its `ForEach`
goes by, and counts them. -/
theorem compact_fresh (layout : Layout hi stored log) (noTmp : hi.tmp = []) {now : Time}
    {nowNs : Int64} {order : RangeOrder Key}
    (goesBy : forEach hi now order = forEach hi (Time.ofNano nowNs) order)
    (roomy : room → ∀ calls, Enumerates nowNs (newest log) calls →
      dataStart (compactBuckets hi.entryCount).toNat + visitBytes calls ≤ File.maxSize) :
    (compact now order).Delivers room hi fun _ next =>
      ∃ newStored newLog calls, Layout next newStored newLog ∧ next.tmp = [] ∧
        newest newLog = prune nowNs (newest log) ∧
        Enumerates nowNs (newest log) calls ∧ next.entryCount.toInt = calls.length ∧
        next.f.length = dataStart (compactBuckets hi.entryCount).toNat + visitBytes calls := by
  rcases layout.forEach_eq nowNs order with ⟨calls, visitsEq, enumerates⟩
  have fits : ∀ visit ∈ calls, visit.key.length ≤ 65535 := fun visit mem =>
    key_fits_of_newest layout ((enumerates.mem_iff visit).mp mem).1
  have steps := @fresh_steps hi room nowNs (newest log) calls layout.compactBuckets_ne_zero noTmp
    enumerates fits fun isRoom => roomy isRoom calls enumerates
  refine .mono
    (steps.delivers fun tmp => (forEach_tmp hi tmp _ order).trans (goesBy.trans visitsEq)) ?_
  rintro _ next ⟨newStored, newLog, nextLayout, nextTmp, newestEq, countEq, lengthEq⟩
  exact ⟨newStored, newLog, calls, nextLayout, nextTmp, newestEq, enumerates, countEq, lengthEq⟩

end Compact

end BriseDB.Index
