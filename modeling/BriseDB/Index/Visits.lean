import BriseDB.Index.Iterate
import BriseDB.Index.Update

/-!
# What an iteration visits

Both strategies of `ForEach` visit exactly the keys whose newest record is live
at the given instant, each of them once.  The scan reaches every record of the
log from the oldest to the newest; the chain walk of a bucket meets the newest
record of every key of that bucket first.
-/

namespace BriseDB.Index

/-- The rule by which iteration and compaction leave out an entry. -/
def Expired (nowNs expiresAt : Int64) : Prop :=
  0 < expiresAt ∧ expiresAt < nowNs

instance (nowNs expiresAt : Int64) : Decidable (Expired nowNs expiresAt) :=
  inferInstanceAs (Decidable (_ ∧ _))

/-- The calls are those for the entries of `content` that have not expired, one
call for every key. -/
structure Enumerates (nowNs : Int64) (content : Key → Option (NeedleAddr × Int64))
    (calls : List Visit) : Prop where
  nodup : (calls.map Visit.key).Nodup
  mem_iff : ∀ visit, visit ∈ calls ↔
    content visit.key = some (visit.addr, visit.expiresAt) ∧ ¬ Expired nowNs visit.expiresAt

namespace Enumerates

variable {nowNs : Int64} {content : Key → Option (NeedleAddr × Int64)} {calls : List Visit}

theorem eq_single (enumerates : Enumerates nowNs content calls) {visit : Visit}
    (only : ∀ other : Visit, content other.key = some (other.addr, other.expiresAt) ∧
      ¬ Expired nowNs other.expiresAt ↔ other = visit) : calls = [visit] := by
  have memIff : ∀ other, other ∈ calls ↔ other = visit :=
    fun other => (enumerates.mem_iff other).trans (only other)
  have nodup : calls.Nodup := List.Nodup.of_map _ enumerates.nodup
  apply List.perm_singleton.mp
  rw [List.perm_ext_iff_of_nodup nodup (List.nodup_singleton visit)]
  intro other
  rw [memIff, List.mem_singleton]

/-- The call for the only entry. -/
theorem eq_update {key : Key} {entry : NeedleAddr × Int64}
    (enumerates : Enumerates nowNs (Function.update (fun _ => none) key (some entry)) calls)
    (live : ¬ Expired nowNs entry.2) : calls = [⟨key, entry.1, entry.2⟩] := by
  refine enumerates.eq_single fun visit => ?_
  rw [Function.update_apply]
  constructor
  · rintro ⟨isEntry, _⟩
    split_ifs at isEntry with same
    rw [Option.some.inj isEntry, ← same]
  · rintro rfl
    exact ⟨if_pos rfl, live⟩

/-- The calls for some of the entries. -/
theorem filter (enumerates : Enumerates nowNs content calls) (keep : Visit → Prop)
    [DecidablePred keep] :
    Enumerates nowNs
      (fun key => (content key).filter fun entry => keep ⟨key, entry.1, entry.2⟩)
      (calls.filter fun visit => keep visit) where
  nodup := (List.filter_sublist.map Visit.key).nodup enumerates.nodup
  mem_iff visit := by
    rw [List.mem_filter, enumerates.mem_iff, Option.filter_eq_some_iff, decide_eq_true_eq]
    exact and_right_comm

/-- The keys of the entries that have not expired determine the keys of the calls. -/
theorem keys_perm {other : Key → Option (NeedleAddr × Int64)} {otherCalls : List Visit}
    (enumerates : Enumerates nowNs content calls)
    (otherEnumerates : Enumerates nowNs other otherCalls)
    (same : ∀ key entry, ¬ Expired nowNs entry.2 → (content key = some entry ↔
      other key = some entry)) :
    (calls.map Visit.key).Perm (otherCalls.map Visit.key) := by
  refine List.Perm.map Visit.key ((List.perm_ext_iff_of_nodup enumerates.nodup.of_map
    otherEnumerates.nodup.of_map).mpr fun visit => ?_)
  rw [enumerates.mem_iff, otherEnumerates.mem_iff]
  constructor
  · exact fun ⟨found, live⟩ => ⟨(same visit.key (visit.addr, visit.expiresAt) live).mp found, live⟩
  · exact fun ⟨found, live⟩ => ⟨(same visit.key (visit.addr, visit.expiresAt) live).mpr found, live⟩

end Enumerates

/-! ## The scan of the data region -/

/-- The table entry for a record. -/
def Record.latest (record : Record) : LatestEntry :=
  ⟨record.addr, record.expiresAt, record.deleted⟩

/-- The table the scan builds from a log. -/
def latestTable : List Record → Table Key LatestEntry
  | [] => ∅
  | record :: older => (latestTable older).insert record.key record.latest

theorem lookup_latestTable (log : List Record) (key : Key) :
    (latestTable log).lookup key =
      (log.find? fun record => record.key = key).map Record.latest := by
  induction log with
  | nil => rfl
  | cons record older ih =>
      by_cases same : record.key = key
      · subst same
        simp [latestTable]
      · rw [latestTable, AList.lookup_insert_ne (Ne.symm same), ih]
        simp [same]

/-- The scan visits a key exactly when its newest record is live. -/
theorem visitLatest_eq_some {nowNs : Int64} {record : Record} {visit : Visit} :
    visitLatest (Time.ofNano nowNs) record.key record.latest = some visit ↔
      visit.key = record.key ∧ record.content = some (visit.addr, visit.expiresAt) ∧
        ¬ Expired nowNs visit.expiresAt := by
  obtain ⟨visitKey, visitAddr, visitExp⟩ := visit
  obtain ⟨next, key, addr, expiresAt, deleted⟩ := record
  simp only [visitLatest, Record.latest, Record.content, Expired, Time.ofNano_lt_ofNano]
  cases deleted
  · by_cases expired : 0 < expiresAt ∧ expiresAt < nowNs
    · simp only [Bool.false_eq_true, if_false, if_pos expired, reduceCtorEq, false_iff]
      rintro ⟨_, found, live⟩
      obtain ⟨rfl, rfl⟩ := Prod.mk.inj (Option.some.inj found)
      exact live expired
    · simp only [Bool.false_eq_true, if_false, if_neg expired, Option.some.injEq, Visit.mk.injEq,
        Prod.mk.injEq]
      constructor
      · rintro ⟨rfl, rfl, rfl⟩
        exact ⟨rfl, ⟨rfl, rfl⟩, expired⟩
      · rintro ⟨rfl, ⟨rfl, rfl⟩, _⟩
        exact ⟨rfl, rfl, rfl⟩
  · simp

section Iterate

variable {hi : HashIndex} {stored : Int64} {log : List Record}

/-- The scan from the end of an older part of the log. -/
theorem Layout.loop_scanStep (layout : Layout hi stored log) (fuel : Nat)
    (newer older : List Record) (split : log = newer ++ older) (enough : newer.length < fuel) :
    Res.loop (scanStep hi.f hi.writePos) fuel
        (dataStart hi.bucketCount + Chain.span Record.size older, latestTable older) =
      .ok (.ok (latestTable log)) := by
  have position : hi.writePos = dataStart hi.bucketCount + Chain.span Record.size log := by
    rw [layout.writePos_eq, layout.length_eq]
  induction fuel generalizing newer older with
  | zero => omega
  | succ fuel ih =>
      rcases List.eq_nil_or_concat newer with rfl | ⟨front, record, rfl⟩
      · have done : log = older := split
        subst done
        have inFile : hi.writePos < 2 ^ 63 := by
          have within := layout.within
          rw [layout.writePos_eq]
          unfold File.maxSize at within
          omega
        exact Res.loop_stop (by rw [scanStep, ← position, if_pos ⟨le_rfl, inFile⟩]) fuel
      · have here : log = front ++ record :: older := by simp [split]
        have before : ¬ (hi.writePos ≤ dataStart hi.bucketCount + Chain.span Record.size older ∧
            dataStart hi.bucketCount + Chain.span Record.size older < 2 ^ 63) := by
          have positive := record.size_pos
          rw [position, here, Chain.span_append, Chain.span]
          omega
        have step : scanStep hi.f hi.writePos
            (dataStart hi.bucketCount + Chain.span Record.size older, latestTable older) =
            .ok (.inl (dataStart hi.bucketCount + Chain.span Record.size (record :: older),
              latestTable (record :: older))) := by
          simp only [scanStep, if_neg before, layout.readEntryAt_eq here, latestTable, Chain.span,
            Record.latest]
          rw [Nat.add_comm record.size, Nat.add_assoc]
        rw [Res.loop_continue step]
        exact ih front (record :: older) here (by simpa using enough)

/-- The scan visits exactly the live keys. -/
theorem Layout.forEachSmall_eq (layout : Layout hi stored log) (nowNs : Int64)
    (order : RangeOrder Key) :
    ∃ calls, forEachSmall hi (Time.ofNano nowNs) order hi.writePos = .ok ⟨calls, none⟩ ∧
      Enumerates nowNs (newest log) calls := by
  have enough : log.length < hi.writePos + 1 := by
    have size := length_le_span log
    have total := layout.length_eq
    have position := layout.writePos_eq
    omega
  have scanned := layout.loop_scanStep _ log [] (by simp) enough
  simp only [Chain.span, Nat.add_zero, latestTable] at scanned
  refine ⟨_, by rw [forEachSmall, layout.dataBase_eq, scanned]; rfl, ?_, ?_⟩
  · refine Table.nodup_filterMap_range order _ ?_
    rintro ⟨key, entry⟩ visit picked
    simp only [visitLatest] at picked
    split at picked
    · cases picked
    · split at picked
      · cases picked
      · cases picked
        rfl
  · intro visit
    simp only [List.mem_filterMap, Prod.exists, Table.mem_range, lookup_latestTable,
      Option.map_eq_some_iff]
    constructor
    · rintro ⟨key, _, ⟨record, found, rfl⟩, picked⟩
      have sameKey : record.key = key := by simpa using List.find?_some found
      subst sameKey
      obtain ⟨keyEq, content, live⟩ := visitLatest_eq_some.mp picked
      rw [keyEq, newest, found]
      exact ⟨content, live⟩
    · rintro ⟨content, live⟩
      obtain ⟨record, found, recordContent⟩ := Option.bind_eq_some_iff.mp content
      have sameKey : record.key = visit.key := by simpa using List.find?_some found
      refine ⟨visit.key, record.latest, ⟨record, found, rfl⟩, ?_⟩
      rw [← sameKey]
      exact visitLatest_eq_some.mpr ⟨sameKey.symm, recordContent, live⟩

/-! ## The walk along the chains -/

/-- The call that the walk makes for a record whose key it meets for the first
time. -/
def Record.visit (nowNs : Int64) (record : Record) : List Visit :=
  (visitLatest (Time.ofNano nowNs) record.key record.latest).toList

theorem Record.mem_visit {nowNs : Int64} {record : Record} {visit : Visit} :
    visit ∈ record.visit nowNs ↔
      visit.key = record.key ∧ record.content = some (visit.addr, visit.expiresAt) ∧
        ¬ Expired nowNs visit.expiresAt := by
  rw [Record.visit, Option.mem_toList]
  exact visitLatest_eq_some

theorem Record.visit_eq (nowNs : Int64) (record : Record) :
    record.visit nowNs =
      if record.deleted = false ∧ ¬ (0 < record.expiresAt ∧ record.expiresAt < nowNs) then
        [⟨record.key, record.addr, record.expiresAt⟩]
      else [] := by
  simp only [visit, visitLatest, latest, Time.ofNano_lt_ofNano]
  cases record.deleted with
  | true => simp
  | false =>
      by_cases expired : 0 < record.expiresAt ∧ record.expiresAt < nowNs
      · rw [if_neg Bool.false_ne_true, if_pos expired, if_neg fun live => live.2 expired]
        rfl
      · rw [if_neg Bool.false_ne_true, if_neg expired, if_pos ⟨rfl, expired⟩]
        rfl

/-- The calls that the walk along a bucket makes, given the keys already met. -/
def slotVisits (count : Nat) (nowNs : Int64) (slot : Nat) : List Key → List Record → List Visit
  | _, [] => []
  | seen, record :: older =>
      if record.bucket count = slot ∧ record.key ∉ seen then
        record.visit nowNs ++ slotVisits count nowNs slot (seen ++ [record.key]) older
      else slotVisits count nowNs slot seen older

theorem slotVisits_skip {count : Nat} {nowNs : Int64} {slot : Nat} {seen : List Key}
    {skipped : List Record} (others : ∀ record ∈ skipped, record.bucket count ≠ slot)
    (rest : List Record) :
    slotVisits count nowNs slot seen (skipped ++ rest) = slotVisits count nowNs slot seen rest := by
  induction skipped with
  | nil => rfl
  | cons record skipped ih =>
      have other : record.bucket count ≠ slot := others record List.mem_cons_self
      rw [List.cons_append, slotVisits, if_neg fun both => other both.1]
      exact ih fun record mem => others record (List.mem_cons_of_mem _ mem)

/-- The chain walk from the head of a bucket in an older part of the log. -/
theorem Layout.loop_chainStep (layout : Layout hi stored log) (nowNs : Int64) (slot fuel : Nat)
    (newer older : List Record) (split : log = newer ++ older) (enough : older.length < fuel)
    (seen : List Key) (calls : List Visit) :
    Res.loop (chainStep hi.f nowNs) fuel ⟨headOf hi.bucketCount slot older, seen, calls⟩ =
      .ok ⟨calls ++ slotVisits hi.bucketCount nowNs slot seen older, none⟩ := by
  induction fuel generalizing newer older seen calls with
  | zero => omega
  | succ fuel ih =>
      rcases layout.walk_cases slot split with
        ⟨headEq, others⟩ | ⟨skipped, record, rest, parts, recordSlot, others, nonzero, entry, link⟩
      · have none_ : slotVisits hi.bucketCount nowNs slot seen older = [] := by
          simpa [slotVisits] using slotVisits_skip others []
        rw [headEq, none_, List.append_nil]
        exact Res.loop_stop (by simp [chainStep]) fuel
      · have restSplit : log = (newer ++ skipped ++ [record]) ++ rest := by simp [split, parts]
        have restEnough : rest.length < fuel := by
          rw [parts] at enough
          simp at enough
          omega
        rw [show slotVisits hi.bucketCount nowNs slot seen older = _ from
          parts ▸ slotVisits_skip others (record :: rest), slotVisits]
        by_cases met : record.key ∈ seen
        · rw [if_neg fun both => both.2 met]
          have step : chainStep hi.f nowNs ⟨headOf hi.bucketCount slot older, seen, calls⟩ =
              .ok (.inl ⟨record.next, seen, calls⟩) := by
            simp [chainStep, nonzero, entry, met]
          rw [Res.loop_continue step, link]
          exact ih _ rest restSplit restEnough seen calls
        · rw [if_pos ⟨recordSlot, met⟩]
          have step : chainStep hi.f nowNs ⟨headOf hi.bucketCount slot older, seen, calls⟩ =
              .ok (.inl ⟨record.next, seen ++ [record.key], calls ++ record.visit nowNs⟩) := by
            simp only [chainStep, if_neg nonzero, entry, if_neg met, Record.visit_eq]
            split <;> simp
          rw [Res.loop_continue step, link, ← List.append_assoc]
          exact ih _ rest restSplit restEnough _ _

/-- The walk along a bucket visits exactly the live keys of that bucket that it
has not met before. -/
theorem mem_slotVisits {count : Nat} {nowNs : Int64} {slot : Nat} {seen : List Key}
    {log : List Record} {visit : Visit} :
    visit ∈ slotVisits count nowNs slot seen log ↔
      visit.key ∉ seen ∧ (fnv64a visit.key).toNat % count = slot ∧
        newest log visit.key = some (visit.addr, visit.expiresAt) ∧
        ¬ Expired nowNs visit.expiresAt := by
  induction log generalizing seen with
  | nil => simp [slotVisits, newest]
  | cons record older ih =>
      rw [slotVisits, newest_cons]
      by_cases same : record.key = visit.key
      · rw [if_pos same]
        split
        · next fresh =>
          rw [List.mem_append, Record.mem_visit, ih, ← same]
          simp [fresh.2, ← fresh.1, Record.bucket]
        · next old =>
          rw [ih, ← same]
          constructor
          · rintro ⟨unseen, slotEq, _⟩
            exact absurd ⟨slotEq, unseen⟩ old
          · rintro ⟨unseen, slotEq, _⟩
            exact absurd ⟨slotEq, unseen⟩ old
      · rw [if_neg same]
        split
        · rw [List.mem_append, Record.mem_visit, ih]
          simp [Ne.symm same]
        · exact ih

/-- The walk along a bucket visits no key twice. -/
theorem nodup_slotVisits {count : Nat} {nowNs : Int64} {slot : Nat} (seen : List Key)
    (log : List Record) : ((slotVisits count nowNs slot seen log).map Visit.key).Nodup := by
  induction log generalizing seen with
  | nil => simp [slotVisits]
  | cons record older ih =>
      rw [slotVisits]
      split
      · rw [List.map_append, List.nodup_append]
        refine ⟨?_, ih _, ?_⟩
        · rw [Record.visit_eq]
          split <;> simp
        · intro first firstMem second secondMem
          obtain ⟨visit, visitMem, rfl⟩ := List.mem_map.mp firstMem
          obtain ⟨later, laterMem, rfl⟩ := List.mem_map.mp secondMem
          have firstKey := (Record.mem_visit.mp visitMem).1
          have unseen := (mem_slotVisits.mp laterMem).1
          rw [firstKey]
          rintro sameKey
          exact unseen (by simp [← sameKey])
      · exact ih _

/-- The buckets are visited one after the other. -/
theorem Layout.forEachSlots_eq (layout : Layout hi stored log) (nowNs : Int64) (slots : List Nat)
    (inRange : ∀ slot ∈ slots, slot < hi.bucketCount) :
    forEachSlots hi nowNs slots =
      .ok ⟨slots.flatMap fun slot => slotVisits hi.bucketCount nowNs slot [] log, none⟩ := by
  have enough : log.length < hi.f.length + 1 := by
    have size := length_le_span log
    have total := layout.length_eq
    omega
  induction slots with
  | nil => rfl
  | cons slot rest ih =>
      have first : forEachSlot hi nowNs slot =
          .ok ⟨slotVisits hi.bucketCount nowNs slot [] log, none⟩ := by
        rw [forEachSlot, layout.heads slot (inRange slot List.mem_cons_self)]
        exact layout.loop_chainStep nowNs slot _ [] log rfl enough [] []
      rw [forEachSlots, first, ih fun other mem => inRange other (List.mem_cons_of_mem _ mem)]
      rfl

/-- The walk visits exactly the live keys. -/
theorem Layout.forEachLarge_eq (layout : Layout hi stored log) (nowNs : Int64) :
    ∃ calls, forEachLarge hi (Time.ofNano nowNs) = .ok ⟨calls, none⟩ ∧
      Enumerates nowNs (newest log) calls := by
  refine ⟨_, by
    rw [forEachLarge, Time.unixNano_ofNano,
      layout.forEachSlots_eq nowNs _ fun slot mem => List.mem_range.mp mem], ?_, ?_⟩
  · rw [List.map_flatMap, List.nodup_flatMap]
    refine ⟨fun slot _ => nodup_slotVisits [] log, ?_⟩
    refine List.Pairwise.imp ?_ (List.nodup_range (n := hi.bucketCount))
    intro first second different key firstMem secondMem
    obtain ⟨visit, visitMem, rfl⟩ := List.mem_map.mp firstMem
    obtain ⟨other, otherMem, sameKey⟩ := List.mem_map.mp secondMem
    have firstSlot := (mem_slotVisits.mp visitMem).2.1
    have secondSlot := (mem_slotVisits.mp otherMem).2.1
    rw [sameKey] at secondSlot
    exact different (firstSlot.symm.trans secondSlot)
  · intro visit
    simp only [List.mem_flatMap, List.mem_range, mem_slotVisits, List.not_mem_nil,
      not_false_eq_true, true_and]
    constructor
    · rintro ⟨slot, _, _, content, live⟩
      exact ⟨content, live⟩
    · rintro ⟨content, live⟩
      exact ⟨_, Nat.mod_lt _ layout.bucketCount_pos, rfl, content, live⟩

/-- `ForEach` visits exactly the live keys, each of them once, whichever
strategy it uses. -/
theorem Layout.forEach_eq (layout : Layout hi stored log) (nowNs : Int64)
    (order : RangeOrder Key) :
    ∃ calls, forEach hi (Time.ofNano nowNs) order = .ok ⟨calls, none⟩ ∧
      Enumerates nowNs (newest log) calls := by
  unfold forEach
  split
  · exact layout.forEachSmall_eq nowNs order
  · exact layout.forEachLarge_eq nowNs

end Iterate

end BriseDB.Index
