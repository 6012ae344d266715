import BriseDB.Base.Pointers
import BriseDB.Index.Refinement
import BriseDB.Index.Walk

/-!
# Damaged index files

`openHashIndex` checks the magic of an existing file and nothing else: the number of
buckets, the start of the data region, the bucket table and the pointers of the entries
are taken as they are.  The scan of the data region moves forward whatever it reads, so
it always ends.  The chain walks of `Get` and of the large iteration end exactly if the
pointers they follow do not lead back to an offset, and without buckets the slot of a
key cannot be computed.  The main result says for which files all lookups and both
iterations end.
-/

namespace BriseDB.Index

open Bytes (putLE getLE)
open File (readAt)
open Pointers (followed EndsFrom Along endsFrom_iff_of_bounded)

/-! ## The scan -/

theorem size_pos_of_readEntryAt {contents : Bytes} {pos : Nat} {e : IdxEntry}
    (isEntry : readEntryAt contents pos = .ok e) : 0 < e.size := by
  have found := (readEntryAt_eq_ok.mp isEntry).2
  simp only [entryOf] at found
  split at found
  · cases found
    exact Nat.lt_of_lt_of_le (by decide) (Nat.le_add_right entryOverhead _)
  · cases found

/-- The scan ends from every position, whatever the file holds. -/
theorem loop_scanStep_ends (contents : Bytes) (writePos fuel pos : Nat)
    (latest : Table Key LatestEntry) (enough : writePos - pos < fuel) :
    ∃ scanned, Res.loop (scanStep contents writePos) fuel (pos, latest) = .ok scanned := by
  induction fuel generalizing pos latest with
  | zero => omega
  | succ fuel ih =>
      by_cases atEnd : writePos ≤ pos ∧ pos < 2 ^ 63
      · have stops : scanStep contents writePos (pos, latest) = .ok (.inr (.ok latest)) := by
          simp only [scanStep, if_pos atEnd]
        exact ⟨_, Res.loop_stop stops fuel⟩
      · cases isEntry : readEntryAt contents pos with
        | error cause =>
            have stops : scanStep contents writePos (pos, latest) =
                .ok (.inr (.error s!"hash index ForEach at {pos}: {cause}")) := by
              simp only [scanStep, if_neg atEnd, isEntry]
            exact ⟨_, Res.loop_stop stops fuel⟩
        | ok e =>
            have goesOn : scanStep contents writePos (pos, latest) =
                .ok (.inl (pos + e.size,
                  latest.insert e.key ⟨e.addr, e.expiresAt, e.deleted⟩)) := by
              simp only [scanStep, if_neg atEnd, isEntry]
            have positive := size_pos_of_readEntryAt isEntry
            have inFile := (readEntryAt_eq_ok.mp isEntry).1
            rw [Res.loop_continue goesOn]
            exact ih _ _ (by omega)

theorem forEachSmall_ends (hi : HashIndex) (now : Time) (order : RangeOrder Key) :
    ∃ visits, forEachSmall hi now order hi.writePos = .ok visits := by
  rcases loop_scanStep_ends hi.f hi.writePos (hi.writePos + 1) hi.dataBase ∅ (by omega) with
    ⟨scanned, looped⟩
  rw [forEachSmall, looped]
  cases scanned with
  | error cause => exact ⟨_, rfl⟩
  | ok latest => exact ⟨_, rfl⟩

/-! ## The chains -/

/-- The pointer followed at `off`: none at offset 0, where no complete entry lies, and at
an entry of the key that is looked for, if one is. -/
def hop (contents : Bytes) (sought : Option Key) (off : Nat) : Option Nat :=
  if off = 0 then none
  else
    match readEntryAt contents off with
    | .error _ => none
    | .ok e => if sought = some e.key then none else some e.next

section Hops

variable {contents : Bytes} {sought : Option Key} {off : Nat}

theorem hop_zero : hop contents sought 0 = none :=
  if_pos rfl

theorem hop_error (notZero : off ≠ 0) {cause : String}
    (unreadable : readEntryAt contents off = .error cause) : hop contents sought off = none := by
  rw [hop, if_neg notZero, unreadable]

theorem hop_ok (notZero : off ≠ 0) {e : IdxEntry} (isEntry : readEntryAt contents off = .ok e) :
    hop contents sought off = if sought = some e.key then none else some e.next := by
  rw [hop, if_neg notZero, isEntry]

theorem hop_inside (start position : Nat) (step : hop contents sought start = some position) :
    start < contents.length := by
  by_cases isZero : start = 0
  · subst isZero
    rw [hop_zero] at step
    cases step
  · cases isEntry : readEntryAt contents start with
    | error cause =>
        rw [hop_error isZero isEntry] at step
        cases step
    | ok e => exact lt_length_of_readEntryAt isEntry

end Hops

/-- The walk of `Get` follows the pointers up to an entry of its key. -/
theorem getStep_along (hi : HashIndex) (key : Key) :
    Along (getStep hi key) id (hop hi.f (some key)) := by
  intro off
  by_cases isZero : off = 0
  · exact .inl ⟨none, if_pos isZero, if_pos isZero⟩
  rw [id, getStep, if_neg isZero]
  cases isEntry : readEntryAt hi.f off with
  | error cause => exact .inl ⟨none, rfl, hop_error isZero isEntry⟩
  | ok e =>
      rw [hop_ok isZero isEntry]
      by_cases isKey : e.key = key
      · exact .inl ⟨_, if_pos isKey, if_pos (congrArg some isKey.symm)⟩
      · exact .inr ⟨e.next, if_neg isKey, if_neg fun same => isKey (Option.some.inj same).symm⟩

/-- The walk of the large iteration follows them to the end. -/
theorem chainStep_along (contents : Bytes) (nowNs : Int64) :
    Along (chainStep contents nowNs) ChainState.off (hop contents none) := by
  intro current
  by_cases isZero : current.off = 0
  · exact .inl ⟨_, if_pos isZero, if_pos isZero⟩
  rw [chainStep, if_neg isZero]
  cases isEntry : readEntryAt contents current.off with
  | error cause => exact .inl ⟨_, rfl, hop_error isZero isEntry⟩
  | ok e =>
      rw [hop_ok isZero isEntry, if_neg (by simp)]
      by_cases again : e.key ∈ current.seen
      · exact .inr ⟨_, if_pos again, rfl⟩
      · exact .inr ⟨_, if_neg again, rfl⟩

/-- The pointers from `off` lead to offset 0, through complete entries only. -/
def Intact (contents : Bytes) (off : Nat) : Prop :=
  ∃ n, followed (hop contents none) n off = some 0

theorem intact_iff_of_hop {contents : Bytes} {off position : Nat} (notZero : off ≠ 0)
    (step : hop contents none off = some position) :
    Intact contents off ↔ Intact contents position := by
  constructor
  · rintro ⟨n, reached⟩
    cases n with
    | zero => exact absurd (Option.some.inj reached) notZero
    | succ n => exact ⟨n, by rwa [followed, step, Option.bind_some] at reached⟩
  · rintro ⟨n, reached⟩
    exact ⟨n + 1, by rwa [followed, step, Option.bind_some]⟩

/-- The walk of a bucket ends without an error exactly if its chain is intact. -/
theorem loop_chainStep_error {contents : Bytes} {nowNs : Int64} {fuel : Nat}
    {current : ChainState} {visits : Visits}
    (walked : Res.loop (chainStep contents nowNs) fuel current = .ok visits) :
    visits.error = none ↔ Intact contents current.off := by
  induction fuel generalizing current with
  | zero => cases walked
  | succ fuel ih =>
      by_cases isZero : current.off = 0
      · have stops : chainStep contents nowNs current = .ok (.inr ⟨current.calls, none⟩) :=
          if_pos isZero
        rw [Res.loop_stop stops] at walked
        cases walked
        exact ⟨fun _ => ⟨0, congrArg some isZero⟩, fun _ => rfl⟩
      cases isEntry : readEntryAt contents current.off with
      | error cause =>
          have stops : chainStep contents nowNs current = .ok (.inr ⟨current.calls,
              some s!"hash index ForEach at {current.off}: {cause}"⟩) := by
            rw [chainStep, if_neg isZero, isEntry]
          rw [Res.loop_stop stops] at walked
          cases walked
          constructor
          · intro noError
            cases noError
          · rintro ⟨n, reached⟩
            cases n with
            | zero => exact absurd (Option.some.inj reached) isZero
            | succ n =>
                rw [followed, hop_error isZero isEntry] at reached
                cases reached
      | ok e =>
          rcases chainStep_along contents nowNs current with
            ⟨_, _, ended⟩ | ⟨after, continued, step⟩
          · rw [hop_ok isZero isEntry, if_neg (by simp)] at ended
            cases ended
          · rw [Res.loop_continue continued] at walked
            rw [ih walked, intact_iff_of_hop isZero step]

/-- The large iteration comes to a bucket if the chains of the buckets before it are
intact, and ends if the chains it comes to end. -/
theorem forEachSlots_ends_iff (hi : HashIndex) (nowNs : Int64) (slots : List Nat) :
    (∃ visits, forEachSlots hi nowNs slots = .ok visits) ↔
      ∀ (i slot : Nat), slots[i]? = some slot →
        (∀ (j earlier : Nat), j < i → slots[j]? = some earlier →
          Intact hi.f (hi.buckets.getD earlier 0)) →
        EndsFrom (hop hi.f none) (hi.buckets.getD slot 0) := by
  induction slots with
  | nil => exact ⟨fun _ i slot isSlot => by simp at isSlot, fun _ => ⟨_, rfl⟩⟩
  | cons first rest ih =>
      have firstIff : (∃ visits, forEachSlot hi nowNs first = .ok visits) ↔
          EndsFrom (hop hi.f none) (hi.buckets.getD first 0) :=
        ((chainStep_along hi.f nowNs).loop_iff _ _).trans
          (endsFrom_iff_of_bounded hop_inside _).symm
      constructor
      · rintro ⟨visits, walked⟩ i slot isSlot intact
        rcases Res.bind_eq_ok.mp walked with ⟨firstVisits, firstEq, walked⟩
        cases i with
        | zero =>
            obtain rfl := Option.some.inj isSlot
            exact firstIff.mp ⟨firstVisits, firstEq⟩
        | succ i =>
            have noError := (loop_chainStep_error firstEq).mpr (intact 0 first i.succ_pos rfl)
            simp only [noError] at walked
            rcases Res.bind_eq_ok.mp walked with ⟨others, othersEq, _⟩
            exact ih.mp ⟨others, othersEq⟩ i slot isSlot fun j earlier before isEarlier =>
              intact (j + 1) earlier (Nat.succ_lt_succ before) isEarlier
      · intro ends
        rcases firstIff.mpr (ends 0 first rfl fun j earlier before => by omega) with
          ⟨firstVisits, firstEq⟩
        cases noError : firstVisits.error with
        | some cause =>
            refine ⟨⟨firstVisits.calls, some cause⟩, Res.bind_eq_ok.mpr ⟨_, firstEq, ?_⟩⟩
            simp only [noError]
            rfl
        | none =>
            have firstIntact := (loop_chainStep_error firstEq).mp noError
            have restEnds : ∃ visits, forEachSlots hi nowNs rest = .ok visits := by
              refine ih.mpr fun i slot isSlot intact => ends (i + 1) slot isSlot ?_
              intro j earlier before isEarlier
              cases j with
              | zero =>
                  obtain rfl := Option.some.inj isEarlier
                  exact firstIntact
              | succ j => exact intact j earlier (Nat.lt_of_succ_lt_succ before) isEarlier
            rcases restEnds with ⟨others, othersEq⟩
            refine ⟨⟨firstVisits.calls ++ others.calls, others.error⟩,
              Res.bind_eq_ok.mpr ⟨_, firstEq, ?_⟩⟩
            simp only [noError]
            exact Res.bind_eq_ok.mpr ⟨others, othersEq, rfl⟩

theorem forEachSlots_ok_or_hang (hi : HashIndex) (nowNs : Int64) (slots : List Nat) :
    (∃ visits, forEachSlots hi nowNs slots = .ok visits) ∨ forEachSlots hi nowNs slots = .hang := by
  induction slots with
  | nil => exact .inl ⟨_, rfl⟩
  | cons first rest ih =>
      rw [forEachSlots]
      rcases (chainStep_along hi.f nowNs).loop_ok_or_hang (hi.f.length + 1)
        ⟨hi.buckets.getD first 0, [], []⟩ with ⟨visits, walked⟩ | hangs
      · rw [forEachSlot, walked]
        change (∃ all, Res.bind (.ok visits) _ = .ok all) ∨ Res.bind (.ok visits) _ = .hang
        simp only [Res.bind]
        cases visits.error with
        | some cause => exact .inl ⟨_, rfl⟩
        | none =>
            rcases ih with ⟨others, othersEq⟩ | othersHang
            · rw [othersEq]
              exact .inl ⟨_, rfl⟩
            · rw [othersHang]
              exact .inr rfl
      · rw [forEachSlot, hangs]
        exact .inr rfl

/-- `ForEach` neither panics nor fails otherwise than by what it reports to its caller. -/
theorem forEach_ok_or_hang (hi : HashIndex) (now : Time) (order : RangeOrder Key) :
    (∃ visits, forEach hi now order = .ok visits) ∨ forEach hi now order = .hang := by
  rw [forEach]
  split
  · exact .inl (forEachSmall_ends hi now order)
  · exact forEachSlots_ok_or_hang hi _ _

/-! ## The index of a file -/

/-- The number of buckets in the header. -/
def headerCount (contents : Bytes) : Nat :=
  getLE (readAt contents 16 8)

/-- The pointer the bucket table holds for a slot. -/
def bucketAt (contents : Bytes) (slot : Nat) : Nat :=
  getLE (readAt contents (hiHeaderSize + slot * 8) 8)

theorem getD_parseTable {count slot : Nat} (inside : slot < count) (bytes : Bytes) :
    (parseTable count bytes).getD slot 0 = getLE (readAt bytes (slot * 8) 8) := by
  induction count generalizing slot bytes with
  | zero => omega
  | succ count ih =>
      cases slot with
      | zero => simp [parseTable, readAt]
      | succ slot =>
          rw [parseTable, List.getD_cons_succ, ih (Nat.lt_of_succ_lt_succ inside), readAt,
            List.drop_drop, readAt, Nat.succ_mul, Nat.add_comm 8]

section Opening

variable {hi : HashIndex} {faults : List Fault}

theorem readHeader_of_ok (returned : (readHeader hi faults).res = .ok ()) :
    (readHeader hi faults).state.f = hi.f ∧
      (readHeader hi faults).state.bucketCount = headerCount hi.f ∧
      (readHeader hi faults).state.bucketBase = hiHeaderSize := by
  rw [readHeader, Exec.bind_state_apply] at returned ⊢
  split at returned
  · cases returned
  rename_i long
  rw [if_neg long]
  split at returned
  · cases returned
  rename_i magic
  rw [if_neg magic]
  refine ⟨rfl, ?_, rfl⟩
  change getLE (readAt (readAt hi.f 0 hiHeaderSize) 16 8) = _
  rw [File.readAt_readAt (by decide), Nat.zero_add]
  rfl

theorem loadBuckets_of_ok (returned : (loadBuckets hi faults).res = .ok ()) :
    (loadBuckets hi faults).state = { hi with
      buckets := parseTable hi.bucketCount (readAt hi.f hi.bucketBase (hi.bucketCount * 8)) } := by
  rw [loadBuckets, Exec.bind_state_apply] at returned ⊢
  split at returned
  · cases returned
  rename_i small
  rw [if_neg small]
  dsimp only at returned ⊢
  split at returned
  · cases returned
  rename_i long
  rw [if_neg long]
  rfl

end Opening

/-- An existing file that is accepted is taken as it is. -/
theorem openHashIndex_of_ok {bucketCount : UInt64} {contents tmp : Bytes} {faults : List Fault}
    (nonempty : contents ≠ [])
    (accepted : (openHashIndex bucketCount (HashIndex.ofFiles contents tmp) faults).res = .ok ()) :
    (openHashIndex bucketCount (HashIndex.ofFiles contents tmp) faults).state.f = contents ∧
      (openHashIndex bucketCount (HashIndex.ofFiles contents tmp) faults).state.bucketCount =
        headerCount contents ∧
      ∀ slot < headerCount contents,
        (openHashIndex bucketCount (HashIndex.ofFiles contents tmp) faults).state.buckets.getD
          slot 0 =
          bucketAt contents slot := by
  obtain ⟨started, isFile, runs⟩ : ∃ started : HashIndex, started.f = contents ∧
      openHashIndex bucketCount (HashIndex.ofFiles contents tmp) faults =
        (Exec.wrap "read hash index header" readHeader >>= fun _ =>
          Exec.modify (fun current => { current with writePos := contents.length }) >>= fun _ =>
            Exec.wrap "load hash index buckets" loadBuckets) started faults := by
    set count := (if bucketCount = 0 then defaultBucketCount else bucketCount).toNat
    refine ⟨{ HashIndex.ofFiles contents tmp with
      bucketCount := count
      bucketBase := hiHeaderSize
      dataBase := hiHeaderSize + count * 8
      writePos := hiHeaderSize + count * 8 }, rfl, ?_⟩
    rw [openHashIndex, Exec.bind_of_ok rfl, Exec.bind_state_apply]
    exact congrFun (congrFun (if_neg nonempty) _) _
  rw [runs] at accepted ⊢
  rcases Exec.bind_eq_ok.mp accepted with ⟨_, headerRead, accepted⟩
  rw [(Exec.bind_failed headerRead).2.1]
  rw [Exec.wrap_eq_ok] at headerRead
  rw [Exec.bind_of_ok rfl, Exec.wrap_eq_ok] at accepted
  rw [Exec.bind_of_ok rfl, Exec.wrap_state, loadBuckets_of_ok accepted, Exec.wrap_state]
  obtain ⟨sameFile, countEq, baseEq⟩ := readHeader_of_ok headerRead
  rw [isFile] at sameFile countEq
  refine ⟨sameFile, countEq, fun slot inside => ?_⟩
  dsimp only
  rw [countEq, baseEq, sameFile, getD_parseTable inside, bucketAt, File.readAt_readAt (by omega)]

/-! ## Files that are answered from -/

/-- Every lookup and both iterations end, with a result or an error. -/
structure Answers (hi : HashIndex) : Prop where
  get : ∀ key, ∃ found, Index.get hi key = .ok found
  small : ∀ now order, ∃ visits, forEachSmall hi now order hi.writePos = .ok visits
  large : ∀ now, ∃ visits, forEachLarge hi now = .ok visits

/-- The pointers of the file lead nowhere back: from the bucket of every key they end at
offset 0, at an unreadable place or at an entry of the key, and the buckets the large
iteration comes to have chains that end. -/
structure Followable (contents : Bytes) : Prop where
  buckets : headerCount contents ≠ 0
  lookups : ∀ key, EndsFrom (hop contents (some key))
    (bucketAt contents ((fnv64a key).toNat % headerCount contents))
  chains : ∀ slot < headerCount contents,
    (∀ earlier < slot, Intact contents (bucketAt contents earlier)) →
      EndsFrom (hop contents none) (bucketAt contents slot)

theorem get_ends_iff (hi : HashIndex) (key : Key) : (∃ found, get hi key = .ok found) ↔
    hi.bucketCount ≠ 0 ∧ EndsFrom (hop hi.f (some key))
      (hi.buckets.getD ((fnv64a key).toNat % hi.bucketCount) 0) := by
  by_cases noBuckets : hi.bucketCount = 0
  · have panics : get hi key = .panic "integer divide by zero" := by
      rw [get, hashSlot, if_pos noBuckets]
      rfl
    constructor
    · rintro ⟨found, returned⟩
      rw [panics] at returned
      cases returned
    · exact fun both => absurd noBuckets both.1
  · have walks : get hi key = Res.loop (getStep hi key) (hi.f.length + 1)
        (hi.buckets.getD ((fnv64a key).toNat % hi.bucketCount) 0) := by
      rw [get, hashSlot, if_neg noBuckets]
      rfl
    rw [walks, and_iff_right noBuckets, (getStep_along hi key).loop_iff, id,
      endsFrom_iff_of_bounded hop_inside]

theorem forEachLarge_ends_iff (hi : HashIndex) (now : Time) :
    (∃ visits, forEachLarge hi now = .ok visits) ↔ ∀ slot < hi.bucketCount,
      (∀ earlier < slot, Intact hi.f (hi.buckets.getD earlier 0)) →
        EndsFrom (hop hi.f none) (hi.buckets.getD slot 0) := by
  rw [forEachLarge, forEachSlots_ends_iff]
  constructor
  · intro ends slot inside intact
    refine ends slot slot (List.getElem?_range inside) fun j earlier before isEarlier => ?_
    rw [List.getElem?_range (before.trans inside)] at isEarlier
    exact Option.some.inj isEarlier ▸ intact j before
  · intro ends i slot isSlot intact
    have inside : i < hi.bucketCount := by
      simpa using (List.getElem?_eq_some_iff.mp isSlot).1
    rw [List.getElem?_range inside] at isSlot
    obtain rfl := Option.some.inj isSlot
    exact ends i inside fun earlier before =>
      intact earlier earlier before (List.getElem?_range (before.trans inside))

/-- Opening an empty file creates an index that answers. -/
theorem openHashIndex_fresh_answers {bucketCount : UInt64} {tmp : Bytes} {faults : List Fault}
    (accepted : (openHashIndex bucketCount (HashIndex.ofFiles [] tmp) faults).res = .ok ()) :
    Answers (openHashIndex bucketCount (HashIndex.ofFiles [] tmp) faults).state := by
  have opens := @openHashIndex_fresh False (HashIndex.ofFiles [] tmp) rfl bucketCount False.elim
  rcases opens.correct faults (openHashIndex_reports bucketCount _ faults () accepted) with
    ⟨_, _, layout, _⟩
  refine ⟨fun key => ⟨_, layout.get_eq key⟩, fun now order => forEachSmall_ends _ now order, ?_⟩
  intro now
  rcases layout.forEachLarge_eq (Time.unixNano now) with ⟨calls, visits, _⟩
  rw [forEachLarge, Time.unixNano_ofNano] at visits
  exact ⟨_, visits⟩

/-- A file that is accepted answers every lookup and both iterations exactly if it is empty
or its header names at least one bucket and its pointers lead nowhere back. -/
theorem openHashIndex_answers_iff {bucketCount : UInt64} {contents tmp : Bytes}
    {faults : List Fault}
    (accepted : (openHashIndex bucketCount (HashIndex.ofFiles contents tmp) faults).res = .ok ()) :
    Answers (openHashIndex bucketCount (HashIndex.ofFiles contents tmp) faults).state ↔
      contents = [] ∨ Followable contents := by
  by_cases empty : contents = []
  · subst empty
    exact ⟨fun _ => .inl rfl, fun _ => openHashIndex_fresh_answers accepted⟩
  rw [or_iff_right empty]
  obtain ⟨fileEq, countEq, bucketsEq⟩ := openHashIndex_of_ok empty accepted
  generalize (openHashIndex bucketCount (HashIndex.ofFiles contents tmp) faults).state = hi at *
  subst fileEq
  have slotIn : ∀ key, headerCount hi.f ≠ 0 →
      (fnv64a key).toNat % headerCount hi.f < headerCount hi.f := fun key nonzero =>
    Nat.mod_lt _ (Nat.pos_of_ne_zero nonzero)
  constructor
  · intro answers
    have lookups := fun key => (get_ends_iff hi key).mp (answers.get key)
    have nonzero : headerCount hi.f ≠ 0 := countEq ▸ (lookups []).1
    refine ⟨nonzero, fun key => ?_, fun slot inside intact => ?_⟩
    · rw [← bucketsEq _ (slotIn key nonzero), ← countEq]
      exact (lookups key).2
    · rw [← bucketsEq slot inside]
      refine (forEachLarge_ends_iff hi 0).mp (answers.large 0) slot (countEq ▸ inside) ?_
      intro earlier before
      rw [bucketsEq earlier (before.trans inside)]
      exact intact earlier before
  · intro followable
    refine ⟨fun key => ?_, fun now order => forEachSmall_ends hi now order, fun now => ?_⟩
    · rw [get_ends_iff, countEq, bucketsEq _ (slotIn key followable.buckets)]
      exact ⟨followable.buckets, followable.lookups key⟩
    · refine (forEachLarge_ends_iff hi now).mpr fun slot inside intact => ?_
      rw [countEq] at inside
      rw [bucketsEq slot inside]
      refine followable.chains slot inside fun earlier before => ?_
      rw [← bucketsEq earlier (before.trans inside)]
      exact intact earlier before

/-- A file of one bucket whose chain is a single entry. -/
def oneEntryFile (next : Nat) : Bytes :=
  encodeHeader 1 72 1 ++ (putLE 8 72 ++ encodeIndexEntry next [107] ⟨0, 4, 1⟩ 0 false)

theorem openHashIndex_answers_iff_oneEntry :
    (openHashIndex 0 (HashIndex.ofFiles (oneEntryFile 0) []) []).res = .ok () ∧
      Answers (openHashIndex 0 (HashIndex.ofFiles (oneEntryFile 0) []) []).state := by
  have accepted :
      (openHashIndex 0 (HashIndex.ofFiles (oneEntryFile 0) []) []).res = .ok () := by
    decide +kernel
  have bucket : headerCount (oneEntryFile 0) = 1 := by decide +kernel
  have pointer : bucketAt (oneEntryFile 0) 0 = 72 := by decide +kernel
  have entry : ∀ sought, hop (oneEntryFile 0) sought 72 =
      if sought = some [107] then none else some 0 := fun sought =>
    hop_ok (by decide) (e := ⟨0, [107], ⟨0, 4, 1⟩, 0, false, 40⟩) (by rfl)
  have ends : ∀ sought, EndsFrom (hop (oneEntryFile 0) sought) 72 := by
    intro sought
    by_cases isKey : sought = some [107]
    · exact Pointers.endsFrom_of_none ((entry sought).trans (if_pos isKey))
    · exact (Pointers.endsFrom_iff_of_some ((entry sought).trans (if_neg isKey))).mpr
        (Pointers.endsFrom_of_none hop_zero)
  refine ⟨accepted, (openHashIndex_answers_iff accepted).mpr
    (.inr ⟨by rw [bucket]; decide, ?_, ?_⟩)⟩
  · intro key
    rw [bucket, Nat.mod_one, pointer]
    exact ends _
  · intro slot inside _
    obtain rfl : slot = 0 := by omega
    rw [pointer]
    exact ends _

/-- A header without buckets is accepted, and every lookup then divides by zero; an entry
that points to itself is accepted, and a lookup of another key then never ends. -/
theorem openHashIndex_accepts_damaged :
    ((openHashIndex 0 (HashIndex.ofFiles (encodeHeader 0 64 0) []) []).res = .ok () ∧
      get (openHashIndex 0 (HashIndex.ofFiles (encodeHeader 0 64 0) []) []).state [107] =
        .panic "integer divide by zero") ∧
    (openHashIndex 0 (HashIndex.ofFiles (oneEntryFile 72) []) []).res = .ok () ∧
      get (openHashIndex 0 (HashIndex.ofFiles (oneEntryFile 72) []) []).state [108] = .hang := by
  decide +kernel

end BriseDB.Index
