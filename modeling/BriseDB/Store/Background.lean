import BriseDB.Store.Commit

/-!
# Eviction, compaction and recovery

Eviction and compaction remove expired rows.  Recovery rebuilds the state of a
database from its files, from the log when the index counts no entries and from
the index otherwise.
-/

namespace BriseDB

open Index (Content Represents Enumerates Expired)

namespace DB

section Evict

variable {db : DB} {rows : Rows} {room : Prop}

/-! ## Eviction -/

/-- The keys that eviction removes, in order. -/
def evictions (db : DB) (now : Time) (order : Fin numShards → RangeOrder Key) : List Key :=
  (List.finRange numShards).flatMap fun shard =>
    (((db.expiry shard).range (order shard)).filter fun entry => entry.2 < now).map Prod.fst

/-- Cached keys are in their shards. -/
def CachedInShards (db : DB) : Prop :=
  ∀ shard key, ((db.expiry shard).lookup key).isSome → shard = shardIndex key

theorem Models.inShards (models : db.Models rows) : db.CachedInShards :=
  fun shard key isCached => (models.cached shard key isCached).1

theorem mem_evictions (inShards : db.CachedInShards) (now : Time)
    (order : Fin numShards → RangeOrder Key) (key : Key) :
    key ∈ db.evictions now order ↔ ∃ instant, db.expiring key = some instant ∧ instant < now := by
  simp only [evictions, List.mem_flatMap, List.mem_finRange, true_and, List.mem_map,
    List.mem_filter, decide_eq_true_eq]
  constructor
  · rintro ⟨shard, ⟨found, instant⟩, ⟨isEntry, passed⟩, rfl⟩
    have cached := (Table.mem_range _ _ _ _).mp isEntry
    obtain rfl := inShards shard found (by rw [cached]; rfl)
    exact ⟨instant, cached, passed⟩
  · rintro ⟨instant, cached, passed⟩
    exact ⟨shardIndex key, (key, instant), ⟨(Table.mem_range _ _ _ _).mpr cached, passed⟩, rfl⟩

/-- One eviction. -/
def evictKey (key : Key) : Exec DB Unit := do
  let _ ← Exec.attempt (onIndex (Index.delete key))
  setExpiry key none

/-- What is kept by the eviction of one key after the other is kept by `evictExpired`. -/
theorem evictExpired_along {R : List Key → DB → Prop} (inShards : db.CachedInShards) (now : Time)
    (order : Fin numShards → RangeOrder Key) (init : R [] db)
    (elsewhere : ∀ gone mid, R gone mid → ∀ shard, (∀ key ∈ gone, shardIndex key ≠ shard) →
      mid.expiry shard = db.expiry shard)
    (step : ∀ gone key later mid, db.evictions now order = gone ++ key :: later → R gone mid →
      (evictKey key).Returns room mid fun _ next => R (gone ++ [key]) next) :
    (evictExpired now order).Returns room db fun _ next => R (db.evictions now order) next := by
  unfold evictExpired
  set keysOf : Fin numShards → List Key := fun shard =>
    (((db.expiry shard).range (order shard)).filter fun entry => entry.2 < now).map Prod.fst
    with keysOfDef
  have keysShard : ∀ shard key, key ∈ keysOf shard → shardIndex key = shard := by
    intro shard key mem
    obtain ⟨⟨found, instant⟩, isEntry, rfl⟩ := List.mem_map.mp mem
    have cached := (Table.mem_range _ _ _ _).mp (List.mem_of_mem_filter isEntry)
    exact (inShards shard found (by rw [cached]; rfl)).symm
  refine .each (fun done mid => R (done.flatMap keysOf) mid) ?_ init
  intro before shard after mid split holds
  have untouched : mid.expiry shard = db.expiry shard := by
    refine elsewhere _ mid holds shard fun key mem same => ?_
    obtain ⟨other, otherMem, isKey⟩ := List.mem_flatMap.mp mem
    have nodup := List.nodup_finRange numShards
    rw [split] at nodup
    have sameShard : other = shard := (keysShard other key isKey).symm.trans same
    exact (List.nodup_append.mp nodup).2.2 other otherMem shard List.mem_cons_self sameShard
  have allEq : db.evictions now order =
      before.flatMap keysOf ++ (keysOf shard ++ after.flatMap keysOf) := by
    change (List.finRange numShards).flatMap keysOf = _
    rw [split, List.flatMap_append, List.flatMap_cons]
  unfold evictShard
  refine .bind_state ?_
  rw [untouched]
  refine .mono (.each (fun done next =>
    R (before.flatMap keysOf ++ (done.filter fun entry => entry.2 < now).map Prod.fst) next) ?_
    (by simpa using holds)) ?_
  · rintro done ⟨key, instant⟩ rest next rangeEq doneHolds
    simp only [List.filter_append, List.map_append]
    by_cases passed : instant < now
    · have isEntry : (key, instant) ∈ (db.expiry shard).range (order shard) := by simp [rangeEq]
      have cached := (Table.mem_range _ _ _ _).mp isEntry
      obtain rfl := inShards shard key (by rw [cached]; rfl)
      have isGone : ([(key, instant)].filter fun entry => entry.2 < now).map Prod.fst = [key] := by
        simp [passed]
      rw [if_pos passed, isGone, ← List.append_assoc]
      refine step _ key ((rest.filter fun entry => entry.2 < now).map Prod.fst ++
        after.flatMap keysOf) next ?_ doneHolds
      rw [allEq, keysOfDef]
      simp [rangeEq, passed]
    · rw [if_neg passed]
      refine .pure ?_
      simpa [passed] using doneHolds
  · intro _ next evicted
    simpa [List.flatMap_append, keysOfDef] using evicted

/-- The effect of evicting the given keys. -/
def Evicted (db next : DB) (rows : Rows) (gone : List Key) : Prop :=
  ∃ change, Effect db next change ∧ change.rows = rows.removeAll gone ∧ change.logged = [] ∧
    change.sent = [] ∧ change.cost = (gone.map indexCost).sum ∧
    (∀ count, 0 ≤ count → change.count count = max 0 (count - gone.length)) ∧
    ∀ shard, (∀ key ∈ gone, shardIndex key ≠ shard) → change.expiry shard = db.expiry shard

theorem Evicted.refl (models : db.Models rows) : Evicted db db rows [] :=
  ⟨_, .refl models, rfl, rfl, rfl, rfl, fun count nonneg => by simp [Change.idle, nonneg],
    fun _ _ => rfl⟩

theorem Evicted.trans {next last : DB} {gone more : List Key} (left : Evicted db next rows gone)
    (right : Evicted next last (rows.removeAll gone) more) :
    Evicted db last rows (gone ++ more) := by
  obtain ⟨early, leftEffect, _, leftLog, leftSent, leftCost, leftCount, leftExpiry⟩ := left
  obtain ⟨late, rightEffect, rowsEq, rightLog, rightSent, rightCost, rightCount, rightExpiry⟩ :=
    right
  refine ⟨_, leftEffect.trans rightEffect, ?_, ?_, ?_, ?_, ?_, ?_⟩
  · rw [Rows.removeAll_append]
    exact rowsEq
  · simp [Change.andThen, leftLog, rightLog]
  · simp [Change.andThen, leftSent, rightSent]
  · simp [Change.andThen, leftCost, rightCost]
  · intro count nonneg
    change late.count (early.count count) = _
    rw [leftCount count nonneg, rightCount _ (le_max_left _ _), List.length_append, Nat.cast_add]
    omega
  · intro shard elsewhere
    change late.expiry shard = _
    rw [rightExpiry shard fun key mem => elsewhere key (List.mem_append_right _ mem),
      leftEffect.expiry_eq, leftExpiry shard fun key mem =>
        elsewhere key (List.mem_append_left _ mem)]

theorem Evicted.single {next : DB} {key : Key}
    (effect : Effect db next (.row db rows key none none)) : Evicted db next rows [key] := by
  refine ⟨_, effect, rfl, rfl, rfl, by simp [Change.row], fun count _ => rfl, ?_⟩
  intro shard elsewhere
  exact Function.update_of_ne (Ne.symm (elsewhere key List.mem_cons_self)) _ _

/-- `evictExpired` removes the rows whose cached expiry has passed. -/
theorem evictExpired_returns (models : db.Models rows) (now : Time)
    (order : Fin numShards → RangeOrder Key)
    (roomy : room → db.Room ((db.evictions now order).map indexCost).sum) :
    (evictExpired now order).Returns room db fun _ next =>
      Evicted db next rows (db.evictions now order) := by
  refine @evictExpired_along db room (fun gone mid => Evicted db mid rows gone) models.inShards now
    order (.refl models) ?_ ?_
  · rintro gone mid ⟨change, effect, _, _, _, _, _, expiryEq⟩ shard others
    rw [effect.expiry_eq]
    exact expiryEq shard others
  · intro gone key later mid split evicted
    obtain ⟨instant, cached, _⟩ := (mem_evictions models.inShards now order key).mp
      (by simp [split])
    have keyFits := (models.cached (shardIndex key) key
      (by rw [show (db.expiry (shardIndex key)).lookup key = _ from cached]; rfl)).2
    obtain ⟨change, effect, rowsEq, rest⟩ := evicted
    have midModels : mid.Models change.rows := effect.models
    refine .bind_attempt (onIndex_delete_returns midModels keyFits ?_) ?_
    · intro enough
      refine effect.room _ (Room.mono ?_ (roomy enough))
      rw [rest.2.2.1, split]
      simp
    · rintro _ _ ⟨hindex, rfl, index, countEq, lengthEq⟩
      have removed := midModels.effect_remove index countEq lengthEq
      rw [rowsEq] at removed
      exact .modify (Evicted.trans ⟨change, effect, rowsEq, rest⟩ (Evicted.single removed))

/-- What eviction removes has expired. -/
theorem expired_of_evicted (models : db.Models rows) {now : Clock}
    {order : Fin numShards → RangeOrder Key} {key : Key} {row : Row}
    (gone : key ∈ db.evictions now order) (isRow : rows key = some row) :
    Session.expiredAt now row.expiresAt := by
  obtain ⟨instant, cached, passed⟩ := (mem_evictions models.inShards _ _ _).mp gone
  rcases models.expiring key instant cached with beyond | ⟨positive, same⟩
  · exact absurd (beyond.trans_lt passed) (not_lt.mpr now.2.2.le)
  · have eq := same row isRow
    refine ⟨?_, by rw [eq]; exact passed⟩
    rw [← eq] at positive
    exact Int64.lt_iff_toInt_lt.mpr positive

end Evict

end DB

/-! ## Compaction -/

theorem Session.expiredAt.mono {now t : Time} {expiresAt : Int64} (le : now ≤ t)
    (expired : Session.expiredAt now expiresAt) : Session.expiredAt t expiresAt :=
  ⟨expired.1, expired.2.trans_le le⟩

theorem expiredAt_ofNano {nowNs expiresAt : Int64} :
    Session.expiredAt (Time.ofNano nowNs) expiresAt ↔ Expired nowNs expiresAt := by
  unfold Session.expiredAt Expired
  rw [Time.ofNano_lt_ofNano]

/-- The rows that have not expired. -/
def Rows.prune (rows : Rows) (now : Time) : Rows :=
  fun key => (rows key).filter fun row => ¬ Session.expiredAt now row.expiresAt

theorem Rows.prune_eq_some {rows : Rows} {now : Time} {key : Key} {row : Row} :
    rows.prune now key = some row ↔
      rows key = some row ∧ ¬ Session.expiredAt now row.expiresAt := by
  simp [prune, Option.filter_eq_some_iff]

/-- Some rows are gone, all of them expired at `t`. -/
def Rows.Sheds (rows after : Rows) (t : Time) : Prop :=
  ∀ key, after key = rows key ∨
    after key = none ∧ ∀ row, rows key = some row → Session.expiredAt t row.expiresAt

theorem Rows.sheds_prune (rows : Rows) {now t : Time} (le : now ≤ t) :
    rows.Sheds (rows.prune now) t := by
  intro key
  cases isRow : rows key with
  | none => exact .inl (by simp [prune, isRow])
  | some row =>
      by_cases expired : Session.expiredAt now row.expiresAt
      · refine .inr ⟨by simp [prune, isRow, Option.filter, expired], ?_⟩
        rintro _ ⟨⟩
        exact expired.mono le
      · exact .inl (by simp [prune, isRow, Option.filter, expired])

theorem DB.Models.sheds_evictions {db : DB} {rows : Rows} (models : db.Models rows) {now : Clock}
    (order : Fin numShards → RangeOrder Key) {t : Time} (le : now.1 ≤ t) :
    rows.Sheds (rows.removeAll (db.evictions now order)) t := by
  intro key
  rw [Rows.removeAll_apply]
  split
  · next gone =>
    exact .inr ⟨rfl, fun row isRow => (DB.expired_of_evicted models gone isRow).mono le⟩
  · exact .inl rfl

theorem Rows.content_prune (rows : Rows) (nowNs : Int64) :
    (rows.prune (Time.ofNano nowNs)).content = Index.prune nowNs rows.content := by
  funext key
  simp only [content, prune, Index.prune]
  cases rows key with
  | none => rfl
  | some row =>
      by_cases expired : Expired nowNs row.expiresAt <;>
        simp [Option.filter, expiredAt_ofNano, expired]

namespace DB

section Compact

variable {db : DB} {rows : Rows} {room : Prop}

/-- The record that compaction writes for a live entry. -/
def visitEntry (visit : Index.Visit) : WalEntry :=
  WalEntry.ofSet visit.key visit.addr visit.expiresAt

/-- `next` is `db` after compaction at `nowNs`: expired rows are gone, and the log
holds one record for each row that is left, followed by what was queued. -/
structure Compacted (db next : DB) (rows : Rows) (nowNs : Int64) : Prop where
  models : next.Models (rows.prune (Time.ofNano nowNs))
  expiry_eq : next.expiry = db.expiry
  volumes_eq : next.volumes = db.volumes
  replicas_eq : next.replicas = db.replicas
  mode_eq : next.fsyncMode = db.fsyncMode
  queue_eq : next.walCh = []
  log_eq : ∃ calls, Enumerates nowNs (rows.prune (Time.ofNano nowNs)).content calls ∧
    next.walFile = ((calls.map visitEntry) ++ db.walCh).map .entry
  count_eq : ∃ calls, Enumerates nowNs rows.content calls ∧
    next.hindex.entryCount.toInt = calls.length ∧
    next.hindex.f.length =
      Index.dataStart (Index.compactBuckets db.hindex.entryCount).toNat + Index.visitBytes calls

theorem rewriteWAL_delivers {content : Content} (represents : Represents db.hindex content)
    (nowNs : Int64) (order : RangeOrder Key) :
    (rewriteWAL (Time.ofNano nowNs) order).Delivers room db fun _ next =>
      ∃ calls, Enumerates nowNs content calls ∧
        next = { db with walFile := (calls.map visitEntry).map .entry, walSynced := 0 } := by
  rcases represents.forEach_eq nowNs order with ⟨calls, callsEq, enumerates⟩
  unfold rewriteWAL
  refine .bind_modify (.bind_ask callsEq ?_)
  refine .bind_outcome (fun _ => .bind_modify (.throw _)) ?_
  exact .of_returns (.modify ⟨calls, enumerates, rfl⟩) (.modify _)

theorem swapWAL_returns (writer : db.walWriterErr = none) :
    swapWAL.Returns room db fun _ next =>
      ∃ synced, next = { db with walFile := db.log, walCh := [], walSynced := synced } ∧
        (db.fsyncMode = .always → synced = db.log.length) := by
  unfold swapWAL
  refine .bind (drain_returns writer) ?_
  rintro _ _ ⟨rfl, rfl⟩
  have writerNone : db.drained.walWriterErr = none := writer
  refine .bind_state (.bind_put ?_)
  simp only [writerNone]
  split
  · next mode =>
    refine .pure ⟨db.drained.walSynced, ?_, fun always => ?_⟩
    · simp [drained, writer]
    · have isNo : db.fsyncMode = .no := mode
      rw [always] at isNo
      cases isNo
  · refine .bind_outcome (.modify ⟨db.log.length, ?_, fun _ => rfl⟩)
    simp [drained, writer]

/-- The three parts of `Compact` together. -/
theorem Compacted.of_parts (models : db.Models rows) {nowNs : Int64} {hindex : Index.HashIndex}
    (represents : Represents hindex (Index.prune nowNs rows.content))
    (countEq : ∃ calls, Enumerates nowNs rows.content calls ∧
      hindex.entryCount.toInt = calls.length ∧ hindex.f.length =
        Index.dataStart (Index.compactBuckets db.hindex.entryCount).toNat + Index.visitBytes calls)
    {calls : List Index.Visit}
    (enumerates : Enumerates nowNs (rows.prune (Time.ofNano nowNs)).content calls)
    {file : List WalLine} (fileEq : file = (calls.map visitEntry ++ db.walCh).map .entry)
    {synced : Nat} (always : db.fsyncMode = .always → synced = file.length) :
    Compacted db { db with
      hindex := hindex
      walFile := file
      walCh := []
      walSynced := synced } rows nowNs := by
  rw [← Rows.content_prune] at represents
  refine ⟨⟨represents, models.pool, ?_, models.cached, ?_, ?_⟩, rfl, rfl, rfl, rfl, rfl,
    ⟨calls, enumerates, fileEq⟩, countEq⟩
  · intro key row isRow
    exact models.holds key row (Rows.prune_eq_some.mp isRow).1
  · intro key instant isCached
    rcases models.expiring key instant isCached with beyond | ⟨positive, same⟩
    · exact .inl beyond
    · exact .inr ⟨positive, fun row isRow => same row (Rows.prune_eq_some.mp isRow).1⟩
  · exact ⟨models.logOK.walErr_eq, models.logOK.writer_eq, fun mode => ⟨rfl, always mode⟩⟩

/-- `Compact`. -/
theorem compact_returns (models : db.Models rows) (nowNs : Int64)
    (indexOrder logOrder : RangeOrder Key)
    (roomy : room → ∀ calls, Enumerates nowNs rows.content calls →
      Index.dataStart (Index.compactBuckets db.hindex.entryCount).toNat + Index.visitBytes calls ≤
        File.maxSize) :
    (compact (Time.ofNano nowNs) indexOrder logOrder).Returns room db fun _ next =>
      Compacted db next rows nowNs := by
  unfold compact
  refine .bind (.wrap (.zoom (models.index.compact nowNs indexOrder roomy))) ?_
  rintro _ _ ⟨hindex, rfl, represents, countEq⟩
  have pruned := represents
  rw [← Rows.content_prune] at pruned
  refine .bind (rewriteWAL_delivers pruned nowNs logOrder).returns ?_
  rintro _ _ ⟨calls, enumerates, rfl⟩
  refine .mono (swapWAL_returns models.logOK.writer_eq) ?_
  rintro _ _ ⟨synced, rfl, always⟩
  exact .of_parts models represents countEq enumerates (by simp [log]) always

/-! ### Compaction that may fail -/

/-- With nothing queued there is only a sync that may fail. -/
theorem swapWAL_delivers (writer : db.walWriterErr = none) (flushed : db.walCh = []) :
    swapWAL.Delivers room db fun _ next =>
      ∃ synced, next = { db with walSynced := synced } ∧
        (db.fsyncMode = .always → synced = db.walFile.length) := by
  have drains : ∀ faults, drain db faults = ⟨.ok (.ok ()), db, faults, false⟩ := by
    intro faults
    unfold drain
    rw [Exec.bind_state_apply]
    simp only [flushed]
    rfl
  unfold swapWAL
  refine .bind_of_eq drains (.bind_state (.bind_put ?_))
  simp only [writer]
  have unchanged : { db with walWriterErr := none } = db := by rw [← writer]
  rw [unchanged]
  split
  · next mode =>
    refine .pure ⟨db.walSynced, unchanged.symm, fun always => ?_⟩
    rw [always] at mode
    cases mode
  · refine .bind_outcome (fun _ => .throw _) ?_
    exact .of_returns
      (.modify ⟨db.walFile.length, by rw [← writer], fun _ => rfl⟩)
      (.modify _)

/-- `Compact` with nothing queued, whatever fails. -/
theorem compact_delivers (models : db.Models rows) (flushed : db.walCh = []) (nowNs : Int64)
    (indexOrder logOrder : RangeOrder Key)
    (roomy : room → ∀ calls, Enumerates nowNs rows.content calls →
      Index.dataStart (Index.compactBuckets db.hindex.entryCount).toNat + Index.visitBytes calls ≤
        File.maxSize) :
    (compact (Time.ofNano nowNs) indexOrder logOrder).Delivers room db fun _ next =>
      Compacted db next rows nowNs := by
  unfold compact
  refine .bind (.wrap (.zoom (models.index.compact_delivers nowNs indexOrder roomy))) ?_
  rintro _ _ ⟨hindex, rfl, represents, countEq⟩
  have pruned := represents
  rw [← Rows.content_prune] at pruned
  refine .bind (rewriteWAL_delivers pruned nowNs logOrder) ?_
  rintro _ _ ⟨calls, enumerates, rfl⟩
  refine .mono (swapWAL_delivers models.logOK.writer_eq flushed) ?_
  rintro _ _ ⟨synced, rfl, always⟩
  have compacted := Compacted.of_parts models represents countEq enumerates
    (show (calls.map visitEntry).map WalLine.entry = _ by simp [flushed]) always
  rwa [← flushed] at compacted

end Compact

end DB

end BriseDB
