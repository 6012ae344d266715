import BriseDB.Store.Restart

/-!
# Rebuilding the index from a compacted log

`Compact` keeps the live entries in two places, the new index and the new log, and
drops the expired ones from both.  Replaying the log into an empty index gives the new
index back, except for the entries that replay passes over.  It is meant to pass over
expired entries, but it takes the nanoseconds of an expiry for seconds.
-/

namespace BriseDB

open Session (expiredAt sortStrings matchGlob)
open Index (Enumerates Expired Content)

/-! ## Answers -/

namespace Session

theorem sortStrings_sorted (keys : List Key) : (sortStrings keys).Pairwise (· ≤ ·) := by
  have sorted := @List.pairwise_mergeSort Key (fun first second => decide (first ≤ second))
    (fun first second third => by simpa only [decide_eq_true_eq] using List.le_trans)
    (fun first second => by simpa using List.le_total first second) keys
  exact sorted.imp of_decide_eq_true

theorem sortStrings_perm {first second : List Key} (perm : first.Perm second) :
    sortStrings first = sortStrings second :=
  List.Perm.eq_of_pairwise (fun _ _ _ _ le ge => List.le_antisymm le ge) (sortStrings_sorted first)
    (sortStrings_sorted second)
    ((List.mergeSort_perm ..).trans (perm.trans (List.mergeSort_perm ..).symm))

/-- `Keys` lists the keys that have not expired. -/
theorem keys_res {db : DB} {rows : Rows} (models : db.Models rows) (pattern : Bytes) (now : Clock)
    (order : RangeOrder Key) :
    ∃ calls, Enumerates (Time.unixNano now) rows.content calls ∧
      (keys pattern now order ⟨db, []⟩ []).res =
        .ok (sortStrings ((calls.map Index.Visit.key).filter (matchGlob pattern))) := by
  rcases models.index.forEach_eq (Time.unixNano now) order with ⟨calls, callsEq, enumerates⟩
  rw [Clock.ofNano_unixNano] at callsEq
  refine ⟨calls, enumerates, ?_⟩
  have listed : (keys pattern now order).Returns True ⟨db, []⟩ fun result _ =>
      result = sortStrings ((calls.map Index.Visit.key).filter (matchGlob pattern)) :=
    Exec.Returns.bind_ask callsEq (.pure rfl)
  rcases listed.correct [] (listed.undisturbed trivial).1 with ⟨_, isOk, rfl⟩
  exact isOk

end Session

/-- Two databases answer a reader at `t` alike. -/
def DB.SameAnswers (db other : DB) (t : Clock) : Prop :=
  (∀ key, (Session.get key t ⟨db, []⟩ []).res = (Session.get key t ⟨other, []⟩ []).res ∧
    (Session.ttl key t ⟨db, []⟩ []).res = (Session.ttl key t ⟨other, []⟩ []).res) ∧
  ∀ pattern order otherOrder, (Session.keys pattern t order ⟨db, []⟩ []).res =
    (Session.keys pattern t otherOrder ⟨other, []⟩ []).res

/-- Databases whose entries are alike answer alike. -/
theorem DB.Models.sameAnswers {live db : DB} {rows after : Rows} (liveModels : live.Models rows)
    (models : db.Models after)
    (keeps : ∀ addr data, live.volumes.localVM.Holds addr data →
      db.volumes.localVM.Holds addr data) {t : Clock}
    (alike : ∀ key, Alike t (rows.content key) (after.content key)) : live.SameAnswers db t := by
  constructor
  · intro key
    rcases liveModels.read_alike models keeps (alike key) with ⟨visibleEq, ttlEq⟩
    rw [Session.get_res liveModels, Session.get_res models, Session.ttl_res liveModels,
      Session.ttl_res models, visibleEq, ttlEq]
    exact ⟨rfl, rfl⟩
  · intro pattern order otherOrder
    rcases Session.keys_res liveModels pattern t order with ⟨calls, enumerates, listEq⟩
    rcases Session.keys_res models pattern t otherOrder with ⟨others, otherEnumerates, otherEq⟩
    rw [listEq, otherEq]
    refine congrArg Res.ok (Session.sortStrings_perm (List.Perm.filter _
      (enumerates.keys_perm otherEnumerates fun key entry live => ?_)))
    rcases alike key with same | ⟨gone, addr, expiresAt, redone, expired⟩
    · rw [same]
    · rw [← expiredAt_ofNano, Clock.ofNano_unixNano] at live
      rw [gone, redone]
      constructor
      · rintro ⟨⟩
      · rintro ⟨⟩
        exact absurd expired live

/-! ## The expiry test of replay -/

/-- When an expiry in seconds is not before `t`.  The seconds are kept from year 1 on,
in 64 bits. -/
theorem Time.le_ofSeconds {expiresAt : Int64} {t : Time} (positive : 0 < expiresAt)
    (nonneg : 0 ≤ t) :
    t ≤ Time.ofSeconds expiresAt ↔
      expiresAt.toInt + 62135596800 < 2 ^ 63 ∧ t ≤ expiresAt.toInt * 10 ^ 9 := by
  have low : 0 < expiresAt.toInt := Int64.lt_iff_toInt_lt.mp positive
  have high : expiresAt.toInt < 2 ^ 63 := Int64.toInt_lt expiresAt
  have offset : Time.unixToInternal.toInt = 62135596800 := rfl
  have sum : (expiresAt + Time.unixToInternal).toInt =
      (expiresAt.toInt + 62135596800).bmod (2 ^ 64) := by
    rw [Int64.toInt_add, offset]
  have nonnegInt : (0 : Int) ≤ t := nonneg
  unfold Time.ofSeconds
  rw [sum, offset, Int.bmod_def]
  change @LE.le Int _ t _ ↔ _ ∧ @LE.le Int _ t _
  split <;> omega

namespace DB

/-! ## Compaction and replay -/

section

variable {db : DB} {rows : Rows}

/-- The rows whose records replay at `now` does not pass over. -/
def replayed (now : Time) (content : Content) : Content :=
  fun key => (content key).filter fun entry =>
    ¬ replaySkips now (WalEntry.ofSet key entry.1 entry.2)

/-- Replaying what compaction has written. -/
theorem Compacted.replay {next : DB} {nowNs : Int64} (compacted : Compacted db next rows nowNs)
    (flushed : db.walCh = [])
    (readsBack : ∀ key row, rows key = some row →
      (WalEntry.ofSet key row.addr row.expiresAt).ReadsBack) {now : Time} (order : RangeOrder Key)
    {room : Prop}
    (roomy : room → ∀ entries, next.walFile = entries.map .entry →
      freshBytes + entriesCost (kept now entries) ≤ File.maxSize ∧
        next.volumes.Room (entriesCost (kept now entries))) :
    (newBriseDB now order).Returns room next.withoutIndex fun _ last =>
      ∃ after, last.Models after ∧
        after.content = replayed now (rows.prune (Time.ofNano nowNs)).content ∧
        next.volumes.localVM.Extends last.volumes.localVM := by
  rcases compacted.log_eq with ⟨calls, enumerates, fileEq⟩
  rw [flushed, List.append_nil] at fileEq
  have rowOf : ∀ visit ∈ calls, ∃ row, rows.prune (Time.ofNano nowNs) visit.key = some row ∧
      visitEntry visit = WalEntry.ofSet visit.key row.addr row.expiresAt := by
    intro visit mem
    rcases Rows.content_eq_some.mp ((enumerates.mem_iff visit).mp mem).1 with
      ⟨row, isRow, entryEq⟩
    rcases Prod.mk.inj entryEq with ⟨addrEq, expiresAtEq⟩
    exact ⟨row, isRow, by rw [visitEntry, addrEq, expiresAtEq]⟩
  have keptEq : kept now (calls.map visitEntry) =
      (calls.filter fun visit => ¬ replaySkips now (visitEntry visit)).map visitEntry := by
    rw [kept, List.filter_map]
    rfl
  refine .mono (newBriseDB_replays order (withoutIndex_closed compacted.models) rfl
    fileEq ?_ ?_ fun enough => roomy enough _ fileEq) ?_
  · intro e mem
    rcases List.mem_map.mp mem with ⟨visit, isCall, rfl⟩
    rcases rowOf visit isCall with ⟨row, isRow, entryEq⟩
    rw [entryEq]
    exact readsBack visit.key row (Rows.prune_eq_some.mp isRow).1
  · intro e mem _
    rcases List.mem_map.mp (List.mem_of_mem_filter mem) with ⟨visit, isCall, rfl⟩
    rcases rowOf visit isCall with ⟨row, isRow, entryEq⟩
    rw [entryEq]
    exact ⟨row.value, compacted.models.holds visit.key row isRow⟩
  · rintro _ last ⟨_, _, change, effect, contentEq, _⟩
    refine ⟨change.rows, effect.models, ?_, effect.keeps⟩
    rw [contentEq, keptEq]
    refine redo_visits (enumerates.filter fun visit => ¬ replaySkips now (visitEntry visit)) ?_
    intro key addr expiresAt found
    have stored := (Option.filter_eq_some_iff.mp found).1
    rcases Rows.content_eq_some.mp stored with ⟨row, isRow, entryEq⟩
    rw [← (Prod.mk.inj entryEq).2, ← expiredAt_ofNano]
    exact (Rows.prune_eq_some.mp isRow).2

/-- Compaction changes no answer from then on. -/
theorem Compacted.sameAnswers {next : DB} {now t : Clock}
    (compacted : Compacted db next rows (Time.unixNano now)) (models : db.Models rows)
    (le : now.1 ≤ t.1) : next.SameAnswers db t := by
  have prunedModels := compacted.models
  rw [Clock.ofNano_unixNano] at prunedModels
  refine prunedModels.sameAnswers models (by rw [compacted.volumes_eq]; exact fun _ _ => id)
    fun key => ?_
  rcases rows.sheds_prune le key with same | ⟨gone, expired⟩
  · exact .inl (by simp only [Rows.content, same])
  · rw [Rows.content_eq_none.mpr gone]
    cases isRow : rows key with
    | none => exact .inl (Rows.content_eq_none.mpr isRow).symm
    | some row =>
        exact .inr ⟨rfl, row.addr, row.expiresAt, Rows.content_eq_some.mpr ⟨row, isRow, rfl⟩,
          expired row isRow⟩

/-- After a `Compact` at `now` with nothing queued that has returned nil, the compacted
database, the one before and the one that is replayed from the log into an empty index
give the same answers from then on if and only if replay, whose clock says `replayedAt`,
passes over no live record. -/
theorem compact_replay_iff (models : db.Models rows) (flushed : db.walCh = [])
    (readsBack : ∀ key row, rows key = some row →
      (WalEntry.ofSet key row.addr row.expiresAt).ReadsBack) (now replayedAt : Clock)
    (indexOrder logOrder keyOrder : RangeOrder Key) (faults replayFaults : List Fault)
    (succeeded : (compact now indexOrder logOrder db faults).res = .ok ())
    (clean : (newBriseDB replayedAt keyOrder
      (compact now indexOrder logOrder db faults).state.withoutIndex replayFaults).failed = false) :
    (newBriseDB replayedAt keyOrder
        (compact now indexOrder logOrder db faults).state.withoutIndex replayFaults).res = .ok () ∧
      ((∀ t : Clock, now.1 ≤ t.1 →
          (compact now indexOrder logOrder db faults).state.SameAnswers db t ∧
          (compact now indexOrder logOrder db faults).state.SameAnswers
            (newBriseDB replayedAt keyOrder
            (compact now indexOrder logOrder db faults).state.withoutIndex replayFaults).state t) ↔
        ∀ key row, rows key = some row → 0 < row.expiresAt → now.1 ≤ Time.ofNano row.expiresAt →
          row.expiresAt.toInt + 62135596800 < 2 ^ 63 ∧
            replayedAt.1 ≤ row.expiresAt.toInt * 10 ^ 9) := by
  have delivers := @compact_delivers db rows False models flushed (Time.unixNano now) indexOrder
    logOrder False.elim
  rw [Clock.ofNano_unixNano] at delivers
  have compacted := delivers.sound faults () succeeded
  set next := (compact now indexOrder logOrder db faults).state
  have prunedModels := compacted.models
  rw [Clock.ofNano_unixNano] at prunedModels
  rcases (@Compacted.replay db rows next _ compacted flushed readsBack replayedAt keyOrder False
    False.elim).correct replayFaults clean with ⟨_, isOk, after, afterModels, contentEq, keeps⟩
  rw [Clock.ofNano_unixNano] at contentEq
  refine ⟨isOk, ?_, ?_⟩
  · intro same key row isRow positive live
    by_contra skipped
    rw [← Time.le_ofSeconds positive replayedAt.2.1, not_le] at skipped
    -- the reader at the time of the compaction finds the key in one of them only
    have answers := ((same now le_rfl).2.1 key).1
    have unexpired : ¬ expiredAt now row.expiresAt := fun expired =>
      absurd expired.2 (not_lt.mpr live)
    have isPruned : rows.prune now key = some row := Rows.prune_eq_some.mpr ⟨isRow, unexpired⟩
    have skips : replaySkips replayedAt (.ofSet key row.addr row.expiresAt) :=
      ⟨rfl, positive, skipped⟩
    have gone : after key = none := by
      rw [← Rows.content_eq_none, contentEq, replayed,
        Rows.content_eq_some.mpr ⟨row, isPruned, rfl⟩]
      exact Option.filter_eq_none_iff.mpr fun entry isEntry => by
        rw [← Option.some.inj isEntry]
        simpa using skips
    rw [Session.get_res prunedModels, Session.get_res afterModels, isPruned, gone] at answers
    simp [visible, unexpired] at answers
  · intro condition t le
    refine ⟨compacted.sameAnswers models le, prunedModels.sameAnswers afterModels keeps.holds
      fun key => .inl ?_⟩
    rw [contentEq, replayed]
    cases isRow : rows.prune now key with
    | none => rw [Rows.content_eq_none.mpr isRow, Option.filter_none]
    | some row =>
        rw [Rows.content_eq_some.mpr ⟨row, isRow, rfl⟩]
        refine (Option.filter_some_pos ?_).symm
        rcases Rows.prune_eq_some.mp isRow with ⟨stored, unexpired⟩
        rw [decide_eq_true_eq]
        rintro ⟨_, positive, skipped⟩
        have live : now.1 ≤ Time.ofNano row.expiresAt :=
          not_lt.mp fun expired => unexpired ⟨positive, expired⟩
        have kept := (Time.le_ofSeconds positive replayedAt.2.1).mpr
          (condition key row stored positive live)
        exact absurd skipped (not_lt.mpr kept)

end

/-! ## A key that expires late -/

/-- The rows of a database with one key. -/
def oneRow (addr : NeedleAddr) (expiresAt : Int64) : Rows :=
  Function.update (fun _ => none) [107] (some ⟨addr, expiresAt, [107]⟩)

theorem oneRow_eq_some {addr : NeedleAddr} {expiresAt : Int64} {key : Key} {row : Row} :
    oneRow addr expiresAt key = some row ↔ key = [107] ∧ row = ⟨addr, expiresAt, [107]⟩ := by
  rw [oneRow, Function.update_apply]
  split_ifs with same
  · simp [same, eq_comm]
  · simp [same]

theorem oneRow_readsBack (addr : NeedleAddr) (expiresAt : Int64) (key : Key) (row : Row)
    (isRow : oneRow addr expiresAt key = some row) :
    (WalEntry.ofSet key row.addr row.expiresAt).ReadsBack := by
  rcases oneRow_eq_some.mp isRow with ⟨rfl, rfl⟩
  exact WalEntry.ofSet_readsBack (by decide) (by decide) addr _

/-- Compacting such a database and replaying its log. -/
theorem oneRow_rebuild {db : DB} {addr : NeedleAddr} {expiresAt : Int64}
    (stocked : db.Stocked (oneRow addr expiresAt) 1 500)
    (live : ¬ expiredAt Clock.sample expiresAt) :
    (compact Clock.sample (.asStored _) (.asStored _) db []).res = .ok () ∧
      Compacted db (compact Clock.sample (.asStored _) (.asStored _) db []).state
        (oneRow addr expiresAt) (Time.unixNano Clock.sample) ∧
      (newBriseDB Clock.sample (.asStored _)).Returns True
        (compact Clock.sample (.asStored _) (.asStored _) db []).state.withoutIndex
        fun _ last => ∃ after, last.Models after ∧
          after.content = replayed Clock.sample
            ((oneRow addr expiresAt).prune Clock.sample).content := by
  have only : ∀ other found, oneRow addr expiresAt other = some found →
      (¬ expiredAt Clock.sample found.expiresAt ↔ other = [107]) := by
    intro other found isRow
    rcases oneRow_eq_some.mp isRow with ⟨rfl, rfl⟩
    exact ⟨fun _ => rfl, fun _ => live⟩
  have compacts := stocked.compact (by decide) (by decide) .sample
    (oneRow_eq_some.mpr ⟨rfl, rfl⟩) rfl only
  rcases compacts.correct [] (compacts.undisturbed trivial).1 with
    ⟨_, isOk, nextStocked, compacted, fileEq⟩
  refine ⟨isOk, compacted, ?_⟩
  have flushed := (stocked.models.logOK.always stocked.always).1
  have replays := @Compacted.replay _ _ _ _ compacted flushed
    (oneRow_readsBack addr expiresAt) Clock.sample (.asStored _) True ?_
  · refine .mono replays ?_
    rintro _ last ⟨after, afterModels, contentEq, _⟩
    rw [Clock.ofNano_unixNano] at contentEq
    exact ⟨after, afterModels, contentEq⟩
  · intro _ entries sameFile
    have injective : Function.Injective WalLine.entry := fun _ _ => WalLine.entry.inj
    obtain rfl := List.map_injective_iff.mpr injective (fileEq.symm.trans sameFile)
    have cost : entriesCost (kept Clock.sample [WalEntry.ofSet [107] addr expiresAt]) ≤ 500 :=
      (entriesCost_kept_le _ _).trans (show indexCost [107] + 0 ≤ 500 by decide)
    have fits : freshBytes + 500 ≤ File.maxSize := by decide +kernel
    exact ⟨(Nat.add_le_add_left cost _).trans fits, (nextStocked.room.mono cost).2⟩

/-- Replay loses the key if its expiry is taken for one that has passed. -/
theorem oneRow_loses {db : DB} {addr : NeedleAddr} {expiresAt : Int64}
    (stocked : db.Stocked (oneRow addr expiresAt) 1 500)
    (live : ¬ expiredAt Clock.sample expiresAt)
    (skipped : 0 < expiresAt ∧ Time.ofSeconds expiresAt < Clock.sample.1) :
    (compact Clock.sample (.asStored _) (.asStored _) db []).res = .ok () ∧
      (Session.get [107] Clock.sample
        ⟨(compact Clock.sample (.asStored _) (.asStored _) db []).state, []⟩ []).res =
          .ok (some [107]) ∧
      (newBriseDB Clock.sample (.asStored _)
        (compact Clock.sample (.asStored _) (.asStored _) db []).state.withoutIndex []).res =
          .ok () ∧
      (Session.get [107] Clock.sample ⟨(newBriseDB Clock.sample (.asStored _)
        (compact Clock.sample (.asStored _) (.asStored _) db []).state.withoutIndex []).state,
        []⟩ []).res = .ok none := by
  rcases oneRow_rebuild stocked live with ⟨succeeded, compacted, replays⟩
  have prunedModels := compacted.models
  rw [Clock.ofNano_unixNano] at prunedModels
  rcases replays.correct [] (replays.undisturbed trivial).1 with
    ⟨_, isOk, after, afterModels, contentEq⟩
  have isRow : (oneRow addr expiresAt).prune Clock.sample [107] = some ⟨addr, expiresAt, [107]⟩ :=
    Rows.prune_eq_some.mpr ⟨oneRow_eq_some.mpr ⟨rfl, rfl⟩, live⟩
  have skips : replaySkips Clock.sample (.ofSet [107] addr expiresAt) := ⟨rfl, skipped⟩
  have gone : after [107] = none := by
    rw [← Rows.content_eq_none, contentEq, replayed, Rows.content_eq_some.mpr ⟨_, isRow, rfl⟩]
    refine Option.filter_eq_none_iff.mpr fun entry isEntry => ?_
    rw [← Option.some.inj isEntry]
    simpa using skips
  refine ⟨succeeded, ?_, isOk, ?_⟩
  · rw [Session.get_res prunedModels, isRow]
    simp [visible, live]
  · rw [Session.get_res afterModels, gone]
    rfl

end DB

/-- A database in which one key is set that expires after the given time. -/
def History.expiringAfter (ttl : Int64) : History :=
  .undisturbed ⟨0, 0, 1, 0, .always⟩ [(.sample, .call 0 (.setEX [107] [107] ttl))]

theorem History.expiringAfter_final {ttl expiresAt : Int64} (positive : ¬ ttl ≤ 0)
    (expiresAtEq : Time.unixNano (Clock.sample.1 + ttl.toInt) = expiresAt) :
    ∃ addr, (History.expiringAfter ttl).final.db.Stocked (DB.oneRow addr expiresAt) 1 500 := by
  have small : (History.expiringAfter ttl).Small .always := rfl
  refine (@History.Small.final _ _ small
    (fun w => ∃ addr, w.db.Stocked (DB.oneRow addr expiresAt) 1 500) fun db fresh => ?_).2.2
  have stocked : db.Stocked (fun _ => none) 0 (49 + 500) := fresh.stocked (by decide +kernel)
  refine .bind (stocked.setEX 107 positive) ?_
  rintro _ _ ⟨next, addr, rfl, nextStocked, _⟩
  rw [expiresAtEq] at nextStocked
  exact .pure ⟨addr, nextStocked⟩

namespace DB

/-- A key that expires a second later is in all three databases. -/
theorem compact_replay_oneSecond :
    (compact Clock.sample (.asStored _) (.asStored _)
      (History.expiringAfter 1000000000).final.db []).res = .ok () ∧
    ∀ t : Clock, Clock.sample.1 ≤ t.1 →
      (compact Clock.sample (.asStored _) (.asStored _)
        (History.expiringAfter 1000000000).final.db []).state.SameAnswers
          (History.expiringAfter 1000000000).final.db t ∧
      (compact Clock.sample (.asStored _) (.asStored _)
        (History.expiringAfter 1000000000).final.db []).state.SameAnswers
          (newBriseDB Clock.sample (.asStored _) (compact Clock.sample (.asStored _) (.asStored _)
            (History.expiringAfter 1000000000).final.db []).state.withoutIndex []).state t := by
  rcases @History.expiringAfter_final 1000000000 1000000001000000000 (by decide) (by decide) with
    ⟨addr, stocked⟩
  rcases oneRow_rebuild stocked (by decide) with ⟨succeeded, _, replays⟩
  refine ⟨succeeded, (compact_replay_iff stocked.models
    (stocked.models.logOK.always stocked.always).1 (oneRow_readsBack addr _) .sample .sample
    (.asStored _) (.asStored _) (.asStored _) [] [] succeeded
    (replays.undisturbed trivial).1).2.mpr ?_⟩
  intro key row isRow _ _
  rw [(oneRow_eq_some.mp isRow).2]
  change (1000000001000000000 : Int64).toInt + 62135596800 < 2 ^ 63 ∧
    Clock.sample.1 ≤ (1000000001000000000 : Int64).toInt * 10 ^ 9
  decide

/-- A key that expires at the end of the range of `UnixNano` is lost by replay. -/
theorem compact_replay_loses :
    (compact Clock.sample (.asStored _) (.asStored _)
        (History.expiringAfter 8223372036854775807).final.db []).res = .ok () ∧
      (Session.get [107] Clock.sample ⟨(compact Clock.sample (.asStored _) (.asStored _)
        (History.expiringAfter 8223372036854775807).final.db []).state, []⟩ []).res =
          .ok (some [107]) ∧
      (newBriseDB Clock.sample (.asStored _) (compact Clock.sample (.asStored _) (.asStored _)
        (History.expiringAfter 8223372036854775807).final.db []).state.withoutIndex []).res =
          .ok () ∧
      (Session.get [107] Clock.sample ⟨(newBriseDB Clock.sample (.asStored _)
        (compact Clock.sample (.asStored _) (.asStored _)
          (History.expiringAfter 8223372036854775807).final.db []).state.withoutIndex []).state,
        []⟩ []).res = .ok none := by
  rcases @History.expiringAfter_final 8223372036854775807 9223372036854775807 (by decide)
    (by decide) with ⟨addr, stocked⟩
  exact oneRow_loses stocked (by decide) (by decide)

end DB

end BriseDB
