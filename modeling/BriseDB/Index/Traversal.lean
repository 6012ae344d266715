import BriseDB.Index.Refinement

/-!
# Traversals during a compaction

`ForEach` takes no lock.  It loads the entry count, the write position, the layout and
the bucket pointers of the index one after the other, and reads each entry with one or
two positional reads through the handle it finds.  At its end, `Compact` closes that
handle and replaces the fields of the index one after the other, which it may only do
while no traversal is under way; but the callers of `ForEach` hold none of the locks that
`Compact` waits for.
-/

namespace BriseDB.Index

open Bytes (getLE)
open File (readAt)

/-! ## Reads through a handle -/

/-- The index as other goroutines find it: its fields, and whether its handle is
open. -/
structure Shared where
  hi : HashIndex
  isOpen : Bool

namespace Shared

/-- The first read of `readEntryAt`: the entry or an error, or the bytes read ahead of an
entry that is longer. -/
def readAhead (s : Shared) (pos : Nat) : Except String IdxEntry ⊕ Bytes :=
  if s.isOpen then
    let ahead := if pos < 2 ^ 63 then readAt s.hi.f pos entryReadAheadSize else []
    if ahead.length < 10 then
      let cause := if pos < 2 ^ 63 then "EOF" else "negative offset"
      .inl (.error s!"hash index read at {pos}: {cause}")
    else
      let next := getLE (readAt ahead 0 8)
      let keyLen := getLE (readAt ahead 8 2)
      let totalSize := entryOverhead + keyLen
      if totalSize ≤ ahead.length then .inl (.ok (decodeEntry (ahead.take totalSize) next keyLen))
      else .inr ahead
  else .inl (.error s!"hash index read at {pos}: file already closed")

/-- The second read of `readEntryAt`. -/
def readTail (s : Shared) (pos : Nat) (ahead : Bytes) : Except String IdxEntry :=
  if s.isOpen then
    let next := getLE (readAt ahead 0 8)
    let keyLen := getLE (readAt ahead 8 2)
    let totalSize := entryOverhead + keyLen
    let tail := readAt s.hi.f (pos + ahead.length) (totalSize - ahead.length)
    if tail.length < totalSize - ahead.length then .error s!"hash index read tail at {pos}: EOF"
    else .ok (decodeEntry (ahead ++ tail) next keyLen)
  else .error s!"hash index read tail at {pos}: file already closed"

end Shared

/-! ## Steps of a traversal -/

/-- Where a traversal stands.  `ahead` is set between the two reads of a long entry. -/
inductive Traversal where
  | idle
  | counted (snapCount : Int64)
  | small (writePos : Nat)
  | scanning (writePos pos : Nat) (latest : Table Key LatestEntry) (ahead : Option Bytes)
  | slots (slot : Nat) (calls : List Visit)
  | loading (slot : Nat) (calls : List Visit)
  | walking (slot : Nat) (current : ChainState) (ahead : Option Bytes)
  | done (visits : Visits)
  | panicked (cause : String)

namespace Traversal

/-- The body of the loop of `forEachSmall`, once the entry is read. -/
def scan (writePos pos : Nat) (latest : Table Key LatestEntry) : Except String IdxEntry → Traversal
  | .error cause => .done ⟨[], some s!"hash index ForEach at {pos}: {cause}"⟩
  | .ok e =>
      .scanning writePos (pos + e.size) (latest.insert e.key ⟨e.addr, e.expiresAt, e.deleted⟩) none

/-- The state of a chain walk after an entry. -/
def pass (nowNs : Int64) (current : ChainState) (e : IdxEntry) : ChainState :=
  if e.key ∈ current.seen then { current with off := e.next }
  else
    { off := e.next
      seen := current.seen ++ [e.key]
      calls :=
        if e.deleted = false ∧ ¬ (0 < e.expiresAt ∧ e.expiresAt < nowNs) then
          current.calls ++ [⟨e.key, e.addr, e.expiresAt⟩]
        else current.calls }

/-- The head of the loop along a chain. -/
def goOn (slot : Nat) (current : ChainState) : Traversal :=
  if current.off = 0 then .slots (slot + 1) current.calls else .walking slot current none

/-- The body of the loop along a chain, once the entry is read. -/
def follow (nowNs : Int64) (slot : Nat) (current : ChainState) : Except String IdxEntry → Traversal
  | .error cause => .done ⟨current.calls, some s!"hash index ForEach at {current.off}: {cause}"⟩
  | .ok e => goOn slot (pass nowNs current e)

/-- One load or positional read of `ForEach`. -/
def advance (now : Time) (order : RangeOrder Key) (s : Shared) : Traversal → Traversal
  | .idle => .counted s.hi.entryCount
  | .counted snapCount =>
      if snapCount < forEachThreshold then .small s.hi.writePos else .slots 0 []
  | .small writePos => .scanning writePos s.hi.dataBase ∅ none
  | .scanning writePos pos latest none =>
      if writePos ≤ pos ∧ pos < 2 ^ 63 then
        .done ⟨(latest.range order).filterMap fun entry => visitLatest now entry.1 entry.2, none⟩
      else
        match s.readAhead pos with
        | .inl entry => scan writePos pos latest entry
        | .inr ahead => .scanning writePos pos latest (some ahead)
  | .scanning writePos pos latest (some ahead) => scan writePos pos latest (s.readTail pos ahead)
  | .slots slot calls =>
      if slot < s.hi.bucketCount then .loading slot calls else .done ⟨calls, none⟩
  | .loading slot calls =>
      match s.hi.buckets[slot]? with
      | none => .panicked "index out of range"
      | some head => goOn slot ⟨head, [], calls⟩
  | .walking slot current none =>
      match s.readAhead current.off with
      | .inl entry => follow (Time.unixNano now) slot current entry
      | .inr ahead => .walking slot current (some ahead)
  | .walking slot current (some ahead) =>
      follow (Time.unixNano now) slot current (s.readTail current.off ahead)
  | .done visits => .done visits
  | .panicked cause => .panicked cause

/-- The traversal has begun and has not ended. -/
def Busy : Traversal → Prop
  | .idle => False
  | .done _ => False
  | _ => True

end Traversal

/-! ## Steps of a compaction -/

/-- The last step that `Compact` has taken.  Until `closing` it only reads the index. -/
inductive Stage where
  | writing
  | closed
  | opened
  | countSet
  | baseSet
  | bucketsSet
  | positioned
  | counted
  | loading (slot : Nat)
  deriving DecidableEq, Repr

/-- An index under compaction and one traversal.  `target` is the index that `Compact`
will have made. -/
structure Overlap where
  shared : Shared
  target : HashIndex
  stage : Stage
  traversal : Traversal

namespace Overlap

/-- `Compact` closes the handle of the index, sets its fields and then loads the bucket
table, one pointer after the other. -/
def replace (s : Overlap) : Overlap :=
  let hi := s.shared.hi
  match s.stage with
  | .writing => { s with shared := ⟨hi, false⟩, stage := .closed }
  | .closed => { s with shared := ⟨{ hi with f := s.target.f }, true⟩, stage := .opened }
  | .opened =>
      { s with
        shared := ⟨{ hi with bucketCount := s.target.bucketCount }, true⟩
        stage := .countSet }
  | .countSet =>
      { s with shared := ⟨{ hi with dataBase := s.target.dataBase }, true⟩, stage := .baseSet }
  | .baseSet =>
      { s with
        shared := ⟨{ hi with bucketBase := s.target.bucketBase }, true⟩
        stage := .bucketsSet }
  | .bucketsSet =>
      { s with shared := ⟨{ hi with writePos := s.target.writePos }, true⟩, stage := .positioned }
  | .positioned =>
      { s with shared := ⟨{ hi with entryCount := s.target.entryCount }, true⟩, stage := .counted }
  | .counted =>
      { s with
        shared := ⟨{ hi with buckets := List.replicate s.target.bucketCount 0 }, true⟩
        stage := .loading 0 }
  | .loading slot =>
      if slot < s.target.bucketCount then
        { s with
          shared := ⟨{ hi with buckets := hi.buckets.set slot (s.target.buckets.getD slot 0) },
            true⟩
          stage := .loading (slot + 1) }
      else s

/-- The replacement has begun and has not ended. -/
def Replacing (s : Overlap) : Prop :=
  match s.stage with
  | .writing => False
  | .loading slot => slot < s.target.bucketCount
  | _ => True

end Overlap

/-- Whose turn it is. -/
inductive Turn where
  | compaction
  | traversal
  deriving DecidableEq, Repr

namespace Overlap

/-- One step. -/
def step (now : Time) (order : RangeOrder Key) (s : Overlap) : Turn → Overlap
  | .compaction => s.replace
  | .traversal => { s with traversal := s.traversal.advance now order s.shared }

/-- Any sequence of steps. -/
def run (now : Time) (order : RangeOrder Key) (s : Overlap) (turns : List Turn) : Overlap :=
  turns.foldl (step now order) s

/-- A `Compact` that has written its file, and a traversal that has not begun. -/
def start (hi target : HashIndex) : Overlap :=
  ⟨⟨hi, true⟩, target, .writing, .idle⟩

/-- The replacement has ended. -/
def Finished (s : Overlap) : Prop :=
  ∃ slot, s.stage = .loading slot ∧ s.target.bucketCount ≤ slot

/-- The compaction replaces nothing while the traversal is under way, and the traversal
does not begin while the compaction replaces something. -/
def Apart (s : Overlap) : Turn → Prop
  | .compaction => ¬ s.traversal.Busy ∨ s.Finished
  | .traversal => s.traversal ≠ .idle ∨ ¬ s.Replacing

end Overlap

/-! ## Traversals without interleaving -/

section Alone

variable {now : Time} {order : RangeOrder Key} {hi : HashIndex}

/-- The two reads of an entry make up `readEntryAt`. -/
theorem Shared.readAhead_open (hi : HashIndex) (pos : Nat) :
    Shared.readAhead ⟨hi, true⟩ pos = .inl (readEntryAt hi.f pos) ∨
      ∃ ahead, Shared.readAhead ⟨hi, true⟩ pos = .inr ahead ∧
        Shared.readTail ⟨hi, true⟩ pos ahead = readEntryAt hi.f pos := by
  set ahead := if pos < 2 ^ 63 then readAt hi.f pos entryReadAheadSize else [] with aheadDef
  by_cases short : ahead.length < 10
  · left
    simp only [readAhead, readEntryAt, ← aheadDef, if_pos short, if_true]
  · by_cases fast : entryOverhead + getLE (readAt ahead 8 2) ≤ ahead.length
    · left
      simp only [readAhead, readEntryAt, ← aheadDef, if_neg short, if_pos fast, if_true]
    · right
      refine ⟨ahead, ?_, ?_⟩
      · simp only [readAhead, ← aheadDef, if_neg short, if_neg fast, if_true]
      · simp only [readTail, readEntryAt, ← aheadDef, if_neg short, if_neg fast, if_true]

namespace Traversal

/-- A traversal of an index that nobody changes gets from one state to another. -/
def Gets (now : Time) (order : RangeOrder Key) (hi : HashIndex) (first last : Traversal) : Prop :=
  ∃ n, (advance now order ⟨hi, true⟩)^[n] first = last

theorem Gets.refl (t : Traversal) : Gets now order hi t t :=
  ⟨0, rfl⟩

theorem Gets.head {first second last : Traversal}
    (step : advance now order ⟨hi, true⟩ first = second) (gets : Gets now order hi second last) :
    Gets now order hi first last := by
  rcases gets with ⟨n, iterated⟩
  exact ⟨n + 1, by rw [Function.iterate_succ_apply, step, iterated]⟩

theorem Gets.trans {first second last : Traversal} (left : Gets now order hi first second)
    (right : Gets now order hi second last) : Gets now order hi first last := by
  rcases left with ⟨n, rfl⟩
  rcases right with ⟨m, rfl⟩
  exact ⟨m + n, Function.iterate_add_apply ..⟩

/-- Reading the next entry of the scan. -/
theorem Gets.scan {writePos pos : Nat} {latest : Table Key LatestEntry} {last : Traversal}
    (inside : ¬ (writePos ≤ pos ∧ pos < 2 ^ 63))
    (gets : Gets now order hi (.scan writePos pos latest (readEntryAt hi.f pos)) last) :
    Gets now order hi (.scanning writePos pos latest none) last := by
  rcases Shared.readAhead_open hi pos with once | ⟨ahead, first, second⟩
  · exact .head (by simp only [advance, if_neg inside, once]) gets
  · have read : advance now order ⟨hi, true⟩ (.scanning writePos pos latest none) =
        .scanning writePos pos latest (some ahead) := by
      simp only [advance, if_neg inside, first]
    exact .head read (.head (by simp only [advance, second]) gets)

/-- What `forEachSmall` makes of its scan. -/
def scanVisits (now : Time) (order : RangeOrder Key) :
    Except String (Table Key LatestEntry) → Visits
  | .error cause => ⟨[], some cause⟩
  | .ok latest =>
      ⟨(latest.range order).filterMap fun entry => visitLatest now entry.1 entry.2, none⟩

/-- The scan of a small index. -/
theorem Gets.scanned {writePos fuel pos : Nat} {latest : Table Key LatestEntry}
    {result : Except String (Table Key LatestEntry)}
    (looped : Res.loop (scanStep hi.f writePos) fuel (pos, latest) = .ok result) :
    Gets now order hi (.scanning writePos pos latest none)
      (.done (scanVisits now order result)) := by
  induction fuel generalizing pos latest with
  | zero => cases looped
  | succ fuel ih =>
      by_cases atEnd : writePos ≤ pos ∧ pos < 2 ^ 63
      · have stops : scanStep hi.f writePos (pos, latest) = .ok (.inr (.ok latest)) := by
          simp only [scanStep, if_pos atEnd]
        rw [Res.loop_stop stops, Res.ok.injEq] at looped
        rw [← looped]
        exact .head (by simp only [advance, if_pos atEnd, scanVisits]) (.refl _)
      · refine .scan atEnd ?_
        cases entry : readEntryAt hi.f pos with
        | error cause =>
            have stops : scanStep hi.f writePos (pos, latest) =
                .ok (.inr (.error s!"hash index ForEach at {pos}: {cause}")) := by
              simp only [scanStep, if_neg atEnd, entry]
            rw [Res.loop_stop stops, Res.ok.injEq] at looped
            rw [← looped]
            exact .refl _
        | ok e =>
            have continues : scanStep hi.f writePos (pos, latest) = .ok (.inl (pos + e.size,
                latest.insert e.key ⟨e.addr, e.expiresAt, e.deleted⟩)) := by
              simp only [scanStep, if_neg atEnd, entry]
            rw [Res.loop_continue continues] at looped
            exact ih looped

/-- Reading the next entry of a chain. -/
theorem Gets.walk {slot : Nat} {current : ChainState} {last : Traversal}
    (gets : Gets now order hi
      (.follow (Time.unixNano now) slot current (readEntryAt hi.f current.off)) last) :
    Gets now order hi (.walking slot current none) last := by
  rcases Shared.readAhead_open hi current.off with once | ⟨ahead, first, second⟩
  · exact .head (by simp only [advance, once]) gets
  · have read : advance now order ⟨hi, true⟩ (.walking slot current none) =
        .walking slot current (some ahead) := by
      simp only [advance, first]
    exact .head read (.head (by simp only [advance, second]) gets)

/-- The state of a chain walk with calls from earlier buckets. -/
def after (before : List Visit) (current : ChainState) : ChainState :=
  { current with calls := before ++ current.calls }

theorem pass_after (nowNs : Int64) (before : List Visit) (current : ChainState) (e : IdxEntry) :
    pass nowNs (after before current) e = after before (pass nowNs current e) := by
  unfold pass after
  dsimp only
  split
  · rfl
  · split
    · rw [List.append_assoc]
    · rfl

/-- Where a traversal goes from the end of a chain. -/
def ended (slot : Nat) (before : List Visit) (visits : Visits) : Traversal :=
  match visits.error with
  | some cause => .done ⟨before ++ visits.calls, some cause⟩
  | none => .slots (slot + 1) (before ++ visits.calls)

/-- The walk along a chain. -/
theorem Gets.walked {slot fuel : Nat} {before : List Visit} {current : ChainState} {visits : Visits}
    (looped : Res.loop (chainStep hi.f (Time.unixNano now)) fuel current = .ok visits) :
    Gets now order hi (goOn slot (after before current)) (ended slot before visits) := by
  induction fuel generalizing current with
  | zero => cases looped
  | succ fuel ih =>
      by_cases atEnd : current.off = 0
      · have stops : chainStep hi.f (Time.unixNano now) current =
            .ok (.inr ⟨current.calls, none⟩) := by
          simp only [chainStep, if_pos atEnd]
        rw [Res.loop_stop stops, Res.ok.injEq] at looped
        rw [← looped, goOn, if_pos (show (after before current).off = 0 from atEnd)]
        exact .refl _
      · rw [goOn, if_neg (show (after before current).off ≠ 0 from atEnd)]
        refine .walk ?_
        change Gets now order hi (.follow _ slot (after before current)
          (readEntryAt hi.f current.off)) _
        cases entry : readEntryAt hi.f current.off with
        | error cause =>
            have stops : chainStep hi.f (Time.unixNano now) current =
                .ok (.inr ⟨current.calls,
                  some s!"hash index ForEach at {current.off}: {cause}"⟩) := by
              simp only [chainStep, if_neg atEnd, entry]
            rw [Res.loop_stop stops, Res.ok.injEq] at looped
            rw [← looped]
            exact .refl _
        | ok e =>
            have continues : chainStep hi.f (Time.unixNano now) current =
                .ok (.inl (pass (Time.unixNano now) current e)) := by
              simp only [chainStep, if_neg atEnd, entry, pass]
              split <;> rfl
            rw [Res.loop_continue continues] at looped
            rw [follow, pass_after]
            exact ih looped

/-- The walks along the chains of the given buckets. -/
theorem Gets.slots (tableLength : hi.buckets.length = hi.bucketCount) {count slot : Nat}
    (isRest : slot + count = hi.bucketCount) {before : List Visit} {visits : Visits}
    (walked : forEachSlots hi (Time.unixNano now) (List.range' slot count) = .ok visits) :
    Gets now order hi (.slots slot before) (.done ⟨before ++ visits.calls, visits.error⟩) := by
  induction count generalizing slot before visits with
  | zero =>
      have noVisits : visits = ⟨[], none⟩ := (Res.ok.inj walked).symm
      have atEnd : ¬ slot < hi.bucketCount := by omega
      rw [noVisits, List.append_nil]
      exact .head (by simp only [advance, if_neg atEnd]) (.refl _)
  | succ count ih =>
      have inside : slot < hi.bucketCount := by omega
      have loads : advance now order ⟨hi, true⟩ (.loading slot before) =
          goOn slot (after before ⟨hi.buckets.getD slot 0, [], []⟩) := by
        have found : hi.buckets[slot]? = some (hi.buckets.getD slot 0) := by
          rw [List.getD_eq_getElem?_getD, List.getElem?_eq_getElem (tableLength.symm ▸ inside),
            Option.getD_some]
        simp only [advance, found, after, List.append_nil]
      rw [List.range'_succ, forEachSlots] at walked
      rcases Res.bind_eq_ok.mp walked with ⟨firstVisits, first, rest⟩
      refine .head (by simp only [advance, if_pos inside]) (.head loads
        ((Gets.walked first).trans ?_))
      cases error : firstVisits.error with
      | some cause =>
          simp only [error, Res.pure_eq, Res.ok.injEq] at rest
          rw [ended, error, ← rest]
          exact .refl _
      | none =>
          simp only [error] at rest
          rcases Res.bind_eq_ok.mp rest with ⟨others, othersEq, visitsEq⟩
          rw [ended, error, ← Res.ok.inj visitsEq, ← List.append_assoc]
          exact ih (by omega) othersEq

/-- The steps of a traversal make up `ForEach`. -/
theorem gets_forEach (tableLength : hi.buckets.length = hi.bucketCount) {visits : Visits}
    (isForEach : forEach hi now order = .ok visits) : Gets now order hi .idle (.done visits) := by
  refine .head rfl ?_
  unfold forEach at isForEach
  by_cases few : hi.entryCount < forEachThreshold
  · rw [if_pos few, forEachSmall] at isForEach
    rcases Res.bind_eq_ok.mp isForEach with ⟨scanned, looped, visitsEq⟩
    have sameVisits : visits = scanVisits now order scanned := by
      cases scanned <;> exact (Res.ok.inj visitsEq).symm
    have chooses : advance now order ⟨hi, true⟩ (.counted hi.entryCount) = .small hi.writePos := by
      simp only [advance, if_pos few]
    rw [sameVisits]
    exact .head chooses (.head rfl (Gets.scanned looped))
  · rw [if_neg few, forEachLarge, List.range_eq_range'] at isForEach
    have chooses : advance now order ⟨hi, true⟩ (.counted hi.entryCount) = .slots 0 [] := by
      simp only [advance, if_neg few]
    exact .head chooses (Gets.slots tableLength (Nat.zero_add _) isForEach)

end Traversal

end Alone

/-! ## Replacing the index -/

section Replace

variable {hi target : HashIndex}

/-- What other goroutines find when `Compact` has got to a stage. -/
def Stage.shared (hi target : HashIndex) : Stage → Shared
  | .writing => ⟨hi, true⟩
  | .closed => ⟨hi, false⟩
  | .opened => ⟨{ hi with f := target.f }, true⟩
  | .countSet => ⟨{ hi with f := target.f, bucketCount := target.bucketCount }, true⟩
  | .baseSet =>
      ⟨{ hi with
        f := target.f
        bucketCount := target.bucketCount
        dataBase := target.dataBase }, true⟩
  | .bucketsSet =>
      ⟨{ target with
        tmp := hi.tmp
        writePos := hi.writePos
        entryCount := hi.entryCount
        buckets := hi.buckets }, true⟩
  | .positioned =>
      ⟨{ target with tmp := hi.tmp, entryCount := hi.entryCount, buckets := hi.buckets }, true⟩
  | .counted => ⟨{ target with tmp := hi.tmp, buckets := hi.buckets }, true⟩
  | .loading slot =>
      ⟨{ target with
        tmp := hi.tmp
        buckets := target.buckets.take slot ++ List.replicate (target.bucketCount - slot) 0 }, true⟩

theorem set_take_append_replicate {values : List Nat} {count slot : Nat}
    (length : values.length = count) (inside : slot < count) :
    (values.take slot ++ List.replicate (count - slot) 0).set slot (values.getD slot 0) =
      values.take (slot + 1) ++ List.replicate (count - (slot + 1)) 0 := by
  have takeLength : (values.take slot).length = slot := by
    rw [List.length_take]
    omega
  have more : count - slot = (count - (slot + 1)) + 1 := by omega
  have value : values.getD slot 0 = values[slot] := by
    rw [List.getD_eq_getElem?_getD, List.getElem?_eq_getElem, Option.getD_some]
  rw [List.set_append_right _ _ takeLength.le, takeLength, Nat.sub_self, more,
    List.replicate_succ, List.set_cons_zero, value, List.take_succ_eq_append_getElem (by omega),
    List.append_assoc, List.singleton_append]

/-- The compaction is at some stage of replacing `hi` by `target`. -/
structure Staged (hi target : HashIndex) (s : Overlap) : Prop where
  target_eq : s.target = target
  shared_eq : s.shared = s.stage.shared hi target
  slot_le : ∀ slot, s.stage = .loading slot → slot ≤ target.bucketCount

theorem Staged.replace (tableLength : target.buckets.length = target.bucketCount) {s : Overlap}
    (staged : Staged hi target s) : Staged hi target s.replace := by
  rcases s with ⟨shared, goal, stage, traversal⟩
  rcases staged with ⟨targetEq, sharedEq, slotLe⟩
  dsimp only at targetEq sharedEq slotLe
  subst targetEq sharedEq
  cases stage with
  | loading slot =>
      by_cases inside : slot < goal.bucketCount
      · refine ⟨?_, ?_, ?_⟩
        all_goals simp only [Overlap.replace, if_pos inside]
        · simp only [Stage.shared, set_take_append_replicate tableLength inside]
        · rintro other ⟨⟩
          exact inside
      · have unchanged : Overlap.replace
            ⟨(Stage.loading slot).shared hi goal, goal, .loading slot, traversal⟩ =
              ⟨(Stage.loading slot).shared hi goal, goal, .loading slot, traversal⟩ :=
          if_neg inside
        rw [unchanged]
        exact ⟨rfl, rfl, slotLe⟩
  | counted =>
      refine ⟨rfl, ?_, ?_⟩
      · simp [Overlap.replace, Stage.shared]
      · rintro slot ⟨⟩
        exact Nat.zero_le _
  | _ => exact ⟨rfl, rfl, fun _ isLoading => by cases isLoading⟩

/-- At the end the index is the compacted one. -/
theorem Staged.finished (tableLength : target.buckets.length = target.bucketCount)
    (sameTmp : hi.tmp = target.tmp) {s : Overlap} (staged : Staged hi target s)
    (finished : s.Finished) : s.shared = ⟨target, true⟩ := by
  rcases finished with ⟨slot, stageEq, le⟩
  rw [staged.target_eq] at le
  rw [staged.shared_eq, stageEq, Stage.shared, sameTmp,
    List.take_of_length_le (tableLength.trans_le le), Nat.sub_eq_zero_of_le le,
    List.replicate_zero, List.append_nil]

/-! ## One after the other -/

variable {now : Time} {order : RangeOrder Key}

/-- A traversal after `n` steps, if nobody changes the index. -/
def Traversal.orbit (now : Time) (order : RangeOrder Key) (hi : HashIndex) (n : Nat) : Traversal :=
  (Traversal.advance now order ⟨hi, true⟩)^[n] .idle

namespace Traversal

theorem orbit_succ (n : Nat) :
    orbit now order hi (n + 1) = advance now order ⟨hi, true⟩ (orbit now order hi n) :=
  Function.iterate_succ_apply' ..

theorem advance_ne_idle (s : Shared) (t : Traversal) (begun : t ≠ .idle) :
    advance now order s t ≠ .idle := by
  have scanned : ∀ writePos pos latest entry, scan writePos pos latest entry ≠ .idle := by
    intro _ _ _ entry
    cases entry <;> simp [scan]
  have goes : ∀ slot current, goOn slot current ≠ .idle := by
    intro slot current
    unfold goOn
    split <;> simp
  have followed : ∀ nowNs slot current entry, follow nowNs slot current entry ≠ .idle := by
    intro _ _ _ entry
    cases entry with
    | error => simp [follow]
    | ok e => exact goes _ _
  cases t with
  | idle => exact absurd rfl begun
  | counted => simp only [advance]; split <;> simp
  | small => simp [advance]
  | scanning writePos pos latest ahead =>
      cases ahead with
      | none =>
          simp only [advance]
          split
          · simp
          · split
            · exact scanned _ _ _ _
            · simp
      | some ahead => exact scanned _ _ _ _
  | slots => simp only [advance]; split <;> simp
  | loading =>
      simp only [advance]
      split
      · simp
      · exact goes _ _
  | walking slot current ahead =>
      cases ahead with
      | none =>
          simp only [advance]
          split
          · exact followed _ _ _ _
          · simp
      | some ahead => exact followed _ _ _ _
  | done => simp [advance]
  | panicked => simp [advance]

theorem orbit_eq_idle {n : Nat} (isIdle : orbit now order hi n = .idle) : n = 0 := by
  have begun : ∀ m, orbit now order hi (m + 1) ≠ .idle := by
    intro m
    induction m with
    | zero => simp [orbit, advance]
    | succ m ih =>
        rw [orbit_succ]
        exact advance_ne_idle _ _ ih
  cases n with
  | zero => rfl
  | succ m => exact absurd isIdle (begun m)

/-- A traversal that has ended takes no more steps. -/
theorem orbit_done {n m : Nat} {visits : Visits} (ended : orbit now order hi n = .done visits)
    (le : n ≤ m) : orbit now order hi m = .done visits := by
  induction m, le using Nat.le_induction with
  | base => exact ended
  | succ m _ ih => rw [orbit_succ, ih]; rfl

theorem orbit_unique {n m : Nat} {visits others : Visits}
    (ended : orbit now order hi n = .done visits) (also : orbit now order hi m = .done others) :
    visits = others := by
  rcases Nat.le_total n m with le | le
  · exact (done.inj ((orbit_done ended le).symm.trans also))
  · exact (done.inj (ended.symm.trans (orbit_done also le)))

end Traversal

open Traversal (orbit)

/-- The traversal sees only the old index or only the new one. -/
inductive Serial (now : Time) (order : RangeOrder Key) (hi target : HashIndex) (oldVisits : Visits)
    (reads : Nat) (s : Overlap) : Prop
  | before (stage : s.stage = .writing) (traversal : s.traversal = orbit now order hi reads)
  | ended (traversal : s.traversal = .done oldVisits)
  | during (replacing : s.Replacing) (traversal : s.traversal = .idle) (noReads : reads = 0)
  | behind (finished : s.Finished) (traversal : s.traversal = orbit now order target reads)

theorem Overlap.replace_traversal (s : Overlap) : s.replace.traversal = s.traversal := by
  unfold Overlap.replace
  cases s.stage with
  | loading slot => dsimp only; split <;> rfl
  | _ => rfl

theorem Overlap.replace_of_finished {s : Overlap} (finished : s.Finished) : s.replace = s := by
  rcases finished with ⟨slot, stageEq, le⟩
  unfold Overlap.replace
  rw [stageEq]
  exact if_neg (Nat.not_lt.mpr le)

/-- A replacement that has begun goes on or has ended. -/
theorem Overlap.replace_replacing {s : Overlap} (begun : s.Replacing ∨ s.stage = .writing) :
    s.replace.Replacing ∨ s.replace.Finished := by
  rcases s with ⟨shared, target, stage, traversal⟩
  cases stage with
  | loading slot =>
      rcases begun with inside | writing
      · change slot < target.bucketCount at inside
        by_cases last : slot + 1 < target.bucketCount
        · left
          simpa [Overlap.replace, inside, Overlap.Replacing] using last
        · right
          refine ⟨slot + 1, ?_, ?_⟩
          · simp [Overlap.replace, inside]
          · simpa [Overlap.replace, inside] using last
      · cases writing
  | counted =>
      by_cases someSlot : 0 < target.bucketCount
      · exact .inl someSlot
      · exact .inr ⟨0, rfl, Nat.le_of_not_lt someSlot⟩
  | _ => exact .inl trivial

variable {oldVisits : Visits}

/-- A step that keeps the two apart. -/
theorem Serial.step (tableLength : target.buckets.length = target.bucketCount)
    (sameTmp : hi.tmp = target.tmp) {bound : Nat}
    (traverses : orbit now order hi bound = .done oldVisits) {reads : Nat} {s : Overlap}
    (staged : Staged hi target s) (serial : Serial now order hi target oldVisits reads s)
    {turn : Turn}
    (apart : s.Apart turn) :
    Serial now order hi target oldVisits (reads + if turn = .traversal then 1 else 0)
      (s.step now order turn) := by
  cases turn with
  | compaction =>
      change Serial now order hi target oldVisits reads s.replace
      cases serial with
      | before stage traversal =>
          have notFinished : ¬ s.Finished := by
            rintro ⟨slot, stageEq, _⟩
            rw [stage] at stageEq
            cases stageEq
          have begun : s.replace.Replacing := by
            rcases s with ⟨shared, goal, _, traversal⟩
            cases stage
            trivial
          have quiet := apart.resolve_right notFinished
          rw [traversal] at quiet
          cases reached : orbit now order hi reads with
          | idle =>
              refine .during begun ?_ (Traversal.orbit_eq_idle reached)
              rw [Overlap.replace_traversal, traversal, reached]
          | done visits =>
              refine .ended ?_
              rw [Overlap.replace_traversal, traversal, reached,
                Traversal.orbit_unique reached traverses]
          | _ =>
              rw [reached] at quiet
              exact absurd trivial quiet
      | ended traversal => exact .ended (s.replace_traversal.trans traversal)
      | during replacing traversal noReads =>
          have idle := s.replace_traversal.trans traversal
          rcases Overlap.replace_replacing (.inl replacing) with still | finished
          · exact .during still idle noReads
          · exact .behind finished (by rw [idle, noReads]; rfl)
      | behind finished traversal =>
          rw [Overlap.replace_of_finished finished]
          exact .behind finished traversal
  | traversal =>
      change Serial now order hi target oldVisits (reads + 1) _
      cases serial with
      | before stage traversal =>
          have sharedEq : s.shared = ⟨hi, true⟩ := by
            rw [staged.shared_eq, stage]
            rfl
          refine .before stage ?_
          change s.traversal.advance now order s.shared = _
          rw [sharedEq, traversal, Traversal.orbit_succ]
      | ended traversal =>
          refine .ended ?_
          change s.traversal.advance now order s.shared = _
          rw [traversal]
          rfl
      | during replacing traversal noReads =>
          rcases apart with begun | notReplacing
          · exact absurd traversal begun
          · exact absurd replacing notReplacing
      | behind finished traversal =>
          refine .behind finished ?_
          change s.traversal.advance now order s.shared = _
          rw [staged.finished tableLength sameTmp finished, traversal, Traversal.orbit_succ]

theorem Staged.step (tableLength : target.buckets.length = target.bucketCount) {s : Overlap}
    (staged : Staged hi target s) (turn : Turn) : Staged hi target (s.step now order turn) := by
  cases turn with
  | compaction => exact staged.replace tableLength
  | traversal => exact ⟨staged.target_eq, staged.shared_eq, staged.slot_le⟩

end Replace

/-- While the compaction and the traversal keep apart, the traversal ends after a bounded
number of its steps, without an error, and has called its callback for every live key
exactly once, with its address. -/
theorem traversal_complete {hi : HashIndex} {content : Content} (represents : Represents hi content)
    {compactNs nowNs : Int64} (compactOrder order : RangeOrder Key) {faults : List Fault}
    (succeeded : (compact (Time.ofNano compactNs) compactOrder hi faults).res = .ok ())
    (steady : ∀ key entry, content key = some entry → Expired compactNs entry.2 →
      Expired nowNs entry.2) :
    ∃ bound, ∀ turns,
      (∀ before turn later, turns = before ++ turn :: later →
        ((Overlap.start hi (compact (Time.ofNano compactNs) compactOrder hi faults).state).run
          (Time.ofNano nowNs) order before).Apart turn) →
      (∀ visits, ((Overlap.start hi (compact (Time.ofNano compactNs) compactOrder hi
        faults).state).run
          (Time.ofNano nowNs) order turns).traversal = .done visits →
        visits.error = none ∧ Enumerates nowNs content visits.calls) ∧
      (bound ≤ turns.count .traversal → ∃ visits,
        ((Overlap.start hi (compact (Time.ofNano compactNs) compactOrder hi faults).state).run
          (Time.ofNano nowNs) order turns).traversal = .done visits) := by
  have delivers := @Represents.compact_delivers False hi content represents compactNs compactOrder
    False.elim
  rcases delivers.sound faults () succeeded with ⟨compacted, _⟩
  set target := (compact (Time.ofNano compactNs) compactOrder hi faults).state
  rcases represents.forEach_eq nowNs order with ⟨oldCalls, oldEq, oldEnumerates⟩
  rcases compacted.forEach_eq nowNs order with ⟨newCalls, newEq, newEnumerates⟩
  have newVisits : Enumerates nowNs content newCalls := by
    refine ⟨newEnumerates.nodup, fun visit => ?_⟩
    rw [newEnumerates.mem_iff, prune_eq_some, and_assoc]
    refine and_congr_right fun found => and_iff_right_of_imp fun live expired => live ?_
    exact steady visit.key _ found expired
  rcases represents with ⟨_, _, layout, _, noTmp⟩
  rcases compacted with ⟨_, _, targetLayout, _, noTargetTmp⟩
  have sameTmp : hi.tmp = target.tmp := noTmp.trans noTargetTmp.symm
  rcases Traversal.gets_forEach layout.buckets_length oldEq with ⟨oldBound, oldEnds⟩
  rcases Traversal.gets_forEach targetLayout.buckets_length newEq with ⟨newBound, newEnds⟩
  refine ⟨max oldBound newBound, fun turns apart => ?_⟩
  have serial : _ ∧ Serial (Time.ofNano nowNs) order hi target ⟨oldCalls, none⟩
      (turns.count .traversal) ((Overlap.start hi target).run (Time.ofNano nowNs) order turns) :=
    Exec.foldl_along
      (fun done s => Staged hi target s ∧
        Serial (Time.ofNano nowNs) order hi target ⟨oldCalls, none⟩ (done.count .traversal) s)
      ⟨⟨rfl, rfl, fun _ isLoading => by cases isLoading⟩, .before rfl rfl⟩
      (fun before turn s holds isApart => by
        refine ⟨holds.1.step targetLayout.buckets_length turn, ?_⟩
        have next := Serial.step targetLayout.buckets_length sameTmp oldEnds holds.1 holds.2 isApart
        rw [List.count_append, List.count_singleton]
        simpa using next)
      turns apart
  have good : ∀ visits : Visits, visits = ⟨oldCalls, none⟩ ∨ visits = ⟨newCalls, none⟩ →
      visits.error = none ∧ Enumerates nowNs content visits.calls := by
    rintro visits (rfl | rfl)
    · exact ⟨rfl, oldEnumerates⟩
    · exact ⟨rfl, newVisits⟩
  cases serial.2 with
  | before stage traversal =>
      rw [traversal]
      refine ⟨fun visits ended => good visits (.inl (Traversal.orbit_unique ended oldEnds)),
        fun enough => ⟨_, Traversal.orbit_done oldEnds ((le_max_left _ _).trans enough)⟩⟩
  | ended traversal =>
      rw [traversal]
      exact ⟨fun visits ended => good visits (.inl (Traversal.done.inj ended).symm),
        fun _ => ⟨_, rfl⟩⟩
  | during replacing traversal noReads =>
      rw [traversal]
      refine ⟨fun visits ended => by (cases ended), fun enough => ?_⟩
      rw [noReads] at enough
      have started := Traversal.orbit_done oldEnds ((le_max_left _ _).trans enough)
      cases started
  | behind finished traversal =>
      rw [traversal]
      refine ⟨fun visits ended => good visits (.inr (Traversal.orbit_unique ended newEnds)),
        fun enough => ⟨_, Traversal.orbit_done newEnds ((le_max_right _ _).trans enough)⟩⟩

/-- Steps of the traversal alone leave the compaction where it is. -/
theorem Overlap.run_traversals (now : Time) (order : RangeOrder Key) {turns : List Turn}
    (all : ∀ turn ∈ turns, turn = .traversal) (s : Overlap) :
    (s.run now order turns).stage = s.stage := by
  induction turns generalizing s with
  | nil => rfl
  | cons turn rest ih =>
      rw [all turn List.mem_cons_self]
      exact ih (fun other mem => all other (List.mem_cons_of_mem _ mem)) _

/-- An index with one entry, and its compaction. -/
theorem exists_compacted :
    ∃ hi, Represents hi (Function.update (fun _ => none) [107] (some (⟨0, 0, 1⟩, 0))) ∧
      hi.entryCount = 1 ∧ hi.dataBase < hi.writePos ∧
      (compact (Time.ofNano 0) (.asStored Key) hi []).res = .ok () := by
  rcases @exists_oneEntry [107] (by decide) ⟨0, 0, 1⟩ 0 with ⟨hi, represents, oneEntry, lengthEq⟩
  have counted : hi.entryCount = 1 := Int64.toInt_inj.mp oneEntry
  have compacts := @Represents.compact True hi _ represents 0 (.asStored Key)
      fun _ calls isCalls => by
    rw [isCalls.eq_update (by decide), counted]
    decide +kernel
  rcases compacts.correct [] (compacts.undisturbed trivial).1 with ⟨_, succeeded, _⟩
  refine ⟨hi, represents, counted, ?_, succeeded⟩
  rcases represents with ⟨_, log, layout, _, _⟩
  have countLe : hi.entryCount.toInt ≤ log.length := layout.count_le
  have spans := length_le_span log
  rw [layout.writePos_eq, layout.length_eq, layout.dataBase_eq]
  omega

/-- A traversal that is not interrupted visits the entry. -/
theorem traversal_complete_oneEntry :
    ∃ hi turns visits, Represents hi (Function.update (fun _ => none) [107] (some (⟨0, 0, 1⟩, 0))) ∧
      (compact (Time.ofNano 0) (.asStored Key) hi []).res = .ok () ∧
      ((Overlap.start hi (compact (Time.ofNano 0) (.asStored Key) hi []).state).run (Time.ofNano 0)
        (.asStored Key) turns).traversal = .done visits ∧
      visits.error = none ∧ visits.calls = [⟨[107], ⟨0, 0, 1⟩, 0⟩] := by
  rcases exists_compacted with ⟨hi, represents, _, _, succeeded⟩
  rcases traversal_complete represents (.asStored Key) (.asStored Key) succeeded
      (fun _ _ _ expired => expired) with ⟨bound, complete⟩
  have ends := complete (List.replicate bound .traversal) fun before turn later split => by
    have all : ∀ other ∈ before ++ turn :: later, other = .traversal := by
      rw [← split]
      exact fun _ => List.eq_of_mem_replicate
    rw [all turn (by simp)]
    right
    rw [Overlap.Replacing,
      Overlap.run_traversals _ _ fun other mem => all other (List.mem_append_left _ mem)]
    exact id
  rcases ends.2 (by rw [List.count_replicate_self]) with ⟨visits, isDone⟩
  rcases ends.1 visits isDone with ⟨noError, enumerates⟩
  exact ⟨hi, _, visits, represents, succeeded, isDone, noError, enumerates.eq_update (by decide)⟩

/-- A traversal whose handle is closed between two of its steps visits nothing and fails. -/
theorem traversal_closed :
    ∃ hi cause, Represents hi (Function.update (fun _ => none) [107] (some (⟨0, 0, 1⟩, 0))) ∧
      (compact (Time.ofNano 0) (.asStored Key) hi []).res = .ok () ∧
      ((Overlap.start hi (compact (Time.ofNano 0) (.asStored Key) hi []).state).run (Time.ofNano 0)
        (.asStored Key) [.traversal, .traversal, .traversal, .compaction, .traversal]).traversal =
          .done ⟨[], some cause⟩ := by
  rcases exists_compacted with ⟨hi, represents, oneEntry, inside, succeeded⟩
  have few : (1 : Int64) < forEachThreshold := by decide
  have stops : ∃ cause, ((Overlap.start hi (compact (Time.ofNano 0) (.asStored Key) hi
      []).state).run
      (Time.ofNano 0) (.asStored Key)
      [.traversal, .traversal, .traversal, .compaction, .traversal]).traversal =
        .done ⟨[], some cause⟩ := by
    simp only [Overlap.run, List.foldl_cons, List.foldl_nil, Overlap.step, Overlap.start,
      Overlap.replace, Traversal.advance, oneEntry, if_pos few,
      if_neg (mt And.left (Nat.not_le.mpr inside)), Shared.readAhead, Traversal.scan,
      Bool.false_eq_true, if_false]
    exact ⟨_, rfl⟩
  rcases stops with ⟨cause, stopped⟩
  exact ⟨hi, cause, represents, succeeded, stopped⟩

end BriseDB.Index
