import BriseDB.Store.Replication
import BriseDB.Store.Restart

/-!
# The entry count of the index

`Set` adds one to the entry count and every tombstone takes one off, whether the key was in use
or not.  `Compact` sizes the new table by the count, and `NewBriseDB` takes an index that counts
nothing for an empty one, so the count must never be below the number of keys in use.

It is not, as long as tombstones are written for keys in use only (`count_bounds`).
-/

namespace BriseDB

open Index (Enumerates)

/-- The list has every key that is in use, and each one once. -/
structure Rows.Listed (rows : Rows) (keys : List Key) : Prop where
  nodup : keys.Nodup
  mem_iff : ∀ key, key ∈ keys ↔ (rows key).isSome

namespace Rows.Listed

variable {rows : Rows} {keys : List Key}

theorem put (listed : rows.Listed keys) (key : Key) (row : Row) :
    Listed (Function.update rows key (some row)) (keys.insert key) where
  nodup := listed.nodup.insert
  mem_iff other := by
    rw [List.mem_insert_iff, listed.mem_iff, Function.update_apply]
    by_cases same : other = key <;> simp [same]

theorem removeAll (listed : rows.Listed keys) (gone : List Key) :
    Listed (rows.removeAll gone) (keys.filter fun key => key ∉ gone) where
  nodup := listed.nodup.filter _
  mem_iff key := by
    rw [List.mem_filter, listed.mem_iff, Rows.removeAll_apply]
    by_cases isGone : key ∈ gone <;> simp [isGone]

/-- Removing keys in use takes off as many as there are. -/
theorem length_removeAll (listed : rows.Listed keys) {gone : List Key} (nodup : gone.Nodup)
    (used : ∀ key ∈ gone, (rows key).isSome) :
    (keys.filter fun key => key ∉ gone).length + gone.length = keys.length := by
  have present : (keys.filter fun key => key ∈ gone).Perm gone := by
    refine (List.perm_ext_iff_of_nodup (listed.nodup.filter _) nodup).mpr fun key => ?_
    rw [List.mem_filter, listed.mem_iff]
    simpa using used key
  have split := List.length_eq_length_filter_add (l := keys) fun key => decide (key ∈ gone)
  rw [present.length_eq] at split
  simpa [Nat.add_comm] using split.symm

theorem prune {now : Int64} {calls : List Index.Visit}
    (enumerates : Enumerates now rows.content calls) :
    Listed (rows.prune (Time.ofNano now)) (calls.map Index.Visit.key) where
  nodup := enumerates.nodup
  mem_iff key := by
    rw [Option.isSome_iff_exists, List.mem_map]
    constructor
    · rintro ⟨visit, isCall, rfl⟩
      rcases (enumerates.mem_iff visit).mp isCall with ⟨found, live⟩
      rcases Rows.content_eq_some.mp found with ⟨row, isRow, entryEq⟩
      rw [← (Prod.mk.inj entryEq).2] at live
      exact ⟨row, Rows.prune_eq_some.mpr ⟨isRow, fun gone => live (expiredAt_ofNano.mp gone)⟩⟩
    · rintro ⟨row, isPruned⟩
      rcases Rows.prune_eq_some.mp isPruned with ⟨isRow, live⟩
      exact ⟨⟨key, row.addr, row.expiresAt⟩, (enumerates.mem_iff _).mpr
        ⟨Rows.content_eq_some.mpr ⟨row, isRow, rfl⟩, fun gone =>
          live (expiredAt_ofNano.mpr gone)⟩, rfl⟩

end Rows.Listed

namespace DB

/-! ## Steps -/

/-- The calls that reach the entry count. -/
inductive CountStep where
  | set (key : Key) (value : Bytes)
  | delete (key : Key)
  | receive (e : WalEntry)
  | evict (now : Time) (order : Fin numShards → RangeOrder Key)
  | compact (now : Clock) (indexOrder logOrder : RangeOrder Key)

namespace CountStep

/-- Carry out a step. -/
def run : CountStep → Exec DB Unit
  | set key value => Session.setNow key value
  | delete key => Session.deleteNow key
  | receive e => applyReplicationEntry e
  | evict now order => evictExpired now order
  | compact now indexOrder logOrder => DB.compact now indexOrder logOrder

/-- The key has an entry in the index. -/
def InUse (db : DB) (key : Key) : Prop :=
  ∃ entry, Index.get db.hindex key = .ok (some entry)

/-- Keys fit into an index entry, and what comes from a primary or from the expiry cache
removes keys in use only. -/
def Careful (db : DB) : CountStep → Prop
  | set key _ => key.length ≤ 65535
  | delete _ => True
  | receive e => e.wire.key.length ≤ 65535 ∧ (e.type = .delete → InUse db e.wire.key)
  | evict now order => ∀ key ∈ db.evictions now order, InUse db key
  | compact _ _ _ => True

end CountStep

open CountStep (InUse)

variable {db next : DB} {rows : Rows} {keys : List Key}

theorem Models.inUse_iff (models : db.Models rows) (key : Key) :
    InUse db key ↔ (rows key).isSome := by
  rw [InUse, get_index_eq models key]
  cases rows key <;> simp

/-- There are at most as many keys in use as the index counts. -/
def CountBounds (db : DB) : Prop :=
  ∃ keys : List Key, keys.Nodup ∧ (∀ key, key ∈ keys ↔ InUse db key) ∧
    (keys.length : Int) ≤ db.hindex.entryCount.toInt

/-- The database stands for rows that its index counts. -/
def Counts (db : DB) : Prop :=
  ∃ rows keys, db.Models rows ∧ rows.Listed keys ∧
    (keys.length : Int) ≤ db.hindex.entryCount.toInt

theorem Counts.bounds (counts : db.Counts) : db.CountBounds := by
  rcases counts with ⟨rows, keys, models, listed, enough⟩
  exact ⟨keys, listed.nodup, fun key => (listed.mem_iff key).trans (models.inUse_iff key).symm,
    enough⟩

/-! ## What each step does to the count -/

/-- A row is written. -/
theorem Effect.counts_put {change : Change} (effect : Effect db next change) {key : Key} {row : Row}
    (rowsEq : change.rows = Function.update rows key (some row))
    (countEq : change.count = (· + 1)) (listed : rows.Listed keys)
    (enough : (keys.length : Int) ≤ db.hindex.entryCount.toInt) : next.Counts := by
  refine ⟨_, _, effect.models, rowsEq ▸ listed.put key row, ?_⟩
  have grown : (keys.insert key).length ≤ keys.length + 1 := by
    rw [List.length_insert]
    split <;> omega
  rw [effect.count_eq, countEq]
  change _ ≤ _ + 1
  omega

/-- Keys in use are removed. -/
theorem Effect.counts_remove {change : Change} (effect : Effect db next change) {gone : List Key}
    (rowsEq : change.rows = rows.removeAll gone)
    (countEq : ∀ count, 0 ≤ count → change.count count = max 0 (count - gone.length))
    (nodup : gone.Nodup) (used : ∀ key ∈ gone, (rows key).isSome) (listed : rows.Listed keys)
    (enough : (keys.length : Int) ≤ db.hindex.entryCount.toInt) : next.Counts := by
  refine ⟨_, _, effect.models, rowsEq ▸ listed.removeAll gone, ?_⟩
  have lengthEq := listed.length_removeAll nodup used
  rw [effect.count_eq, countEq _ (by omega)]
  omega

/-- One key in use is removed. -/
theorem Effect.counts_removeOne {change : Change} (effect : Effect db next change) {key : Key}
    (rowsEq : change.rows = Function.update rows key none) (countEq : change.count = countRow none)
    (used : (rows key).isSome) (listed : rows.Listed keys)
    (enough : (keys.length : Int) ≤ db.hindex.entryCount.toInt) : next.Counts :=
  @Effect.counts_remove db next rows keys change effect [key] rowsEq
    (fun _ _ => by rw [countEq]; rfl)
    (List.nodup_singleton _) (by simpa using used) listed enough

theorem Compacted.counts {now : Int64} (compacted : Compacted db next rows now) : next.Counts := by
  rcases compacted.count_eq with ⟨calls, enumerates, countEq, -⟩
  refine ⟨_, _, compacted.models, Rows.Listed.prune enumerates, ?_⟩
  rw [countEq, List.length_map]

/-- `ApplyReplicationEntry` of a DELETE record removes a row, if there is one. -/
theorem applyReplicationEntry_removes {room : Prop} {e : WalEntry}
    (isDelete : e.wire.type = .delete)
    (keyFits : e.wire.key.length ≤ 65535) (models : db.Models rows)
    (roomy : room → db.Room (indexCost e.wire.key)) :
    (applyReplicationEntry e).Returns room db fun _ next => ∃ change, Effect db next change ∧
      change.rows = Function.update rows e.wire.key none ∧ change.count = countRow none := by
  unfold applyReplicationEntry
  simp only [isDelete]
  refine .bind (applyEntry_delete_returns models isDelete keyFits roomy) ?_
  intro _ updated rowEffect
  refine .mono (writeWAL_returns rowEffect.models _) ?_
  exact fun _ next logEffect => ⟨_, rowEffect.trans logEffect, rfl, rfl⟩

/-- `ApplyReplicationEntry` writes or removes one row. -/
theorem applyReplicationEntry_counts {e : WalEntry} (careful : (CountStep.receive e).Careful db)
    (models : db.Models rows) (listed : rows.Listed keys)
    (enough : (keys.length : Int) ≤ db.hindex.entryCount.toInt) :
    (applyReplicationEntry e).Returns False db fun _ next => next.Counts := by
  cases type : e.wire.type with
  | delete =>
      have used : (rows e.wire.key).isSome := (models.inUse_iff _).mp (careful.2 type)
      refine .mono (applyReplicationEntry_removes type careful.1 models False.elim) ?_
      rintro _ next ⟨change, effect, rowsEq, countEq⟩
      exact effect.counts_removeOne rowsEq countEq used listed enough
  | set =>
      unfold applyReplicationEntry
      simp only [type]
      refine .bind (@write_blob_returns db rows False e.wire.key _ models False.elim _) ?_
      rintro addr written ⟨blobEffect, holds⟩
      refine .bind (@applyEntry_set_returns written rows False blobEffect.models
        ⟨.set, e.wire.key, e.wire.value, addr.volumeID, addr.offset, addr.size, e.wire.expiresAt⟩
          rfl
        careful.1 _ holds False.elim) ?_
      intro _ updated rowEffect
      refine .mono (writeWAL_returns rowEffect.models _) ?_
      intro _ next logEffect
      exact ((blobEffect.trans rowEffect).trans logEffect).counts_put rfl rfl listed enough

/-- A careful step keeps the count above the number of keys in use. -/
theorem CountStep.run_counts {step : CountStep} (careful : step.Careful db) (counts : db.Counts) :
    step.run.Returns False db fun _ next => next.Counts := by
  rcases counts with ⟨rows, keys, models, listed, enough⟩
  cases step with
  | set key value =>
      refine .mono (setNow_returns models careful False.elim) ?_
      rintro _ next ⟨addr, effect⟩
      exact effect.counts_put rfl rfl listed enough
  | delete key =>
      refine .mono (deleteNow_returns models False.elim) ?_
      intro _ next effect
      split at effect
      · next used => exact effect.counts_removeOne rfl rfl used listed enough
      · exact effect ▸ ⟨rows, keys, models, listed, enough⟩
  | receive e => exact applyReplicationEntry_counts careful models listed enough
  | evict now order =>
      refine .mono (evictExpired_returns models now order False.elim) ?_
      rintro _ next ⟨change, effect, rowsEq, -, -, -, countEq, -⟩
      exact effect.counts_remove rowsEq countEq (nodup_evictions models now order)
        (fun key mem => (models.inUse_iff key).mp (careful key mem)) listed enough
  | compact now indexOrder logOrder =>
      have compacts := @compact_returns db rows False models (Time.unixNano now) indexOrder logOrder
        False.elim
      rw [Clock.ofNano_unixNano] at compacts
      exact .mono compacts fun _ _ compacted => compacted.counts

/-! ## Runs -/

/-- Carry out steps one after the other. -/
def countRun (steps : List CountStep) : Exec DB Unit :=
  Exec.each steps CountStep.run

/-- A new database runs without failing writes, and every step is careful when it is taken.
Then the index always counts at least the keys in use. -/
theorem count_bounds {remotes : List Remote} {opt : DBOptions} (fresh : db.Fresh remotes opt)
    {steps : List CountStep} {faults : List Fault}
    (clean : (countRun steps db faults).failed = false)
    (careful : ∀ before step later, steps = before ++ step :: later →
      step.Careful (countRun before db faults).state) :
    (countRun steps db faults).state.CountBounds := by
  have start : db.Counts := by
    refine ⟨_, [], fresh.models, ⟨List.nodup_nil, by simp⟩, ?_⟩
    rw [fresh.count_eq]
    rfl
  have kept := @Exec.Returns.each_run _ _ _ False _ _ (fun _ state => state.Counts) _ ?_ start clean
  · exact kept.2.bounds
  · intro before step later split counts
    exact CountStep.run_counts (careful before step later split) counts

/-! ### Two runs -/

/-- A key is set, and then one other step is taken. -/
theorem set_then {opt : DBOptions} (single : opt.replicationFactor ≤ 1)
    (fresh : db.Fresh [] opt) {step : CountStep} {post : DB → Prop}
    (returns : ∀ next addr, Effect db next (.published db (fun _ => none) [107]
      ⟨addr, 0, [118]⟩ none) →
      next.Room 100 → step.run.Returns True next fun _ => post) :
    (countRun [.set [107] [118], step]).Returns True db fun _ => post := by
  have cost : db.volumes.cost [118] + indexCost [107] + 100 ≤ 1000 := by
    rw [fresh.cost single]
    decide +kernel
  have fits : freshBytes + 1000 ≤ File.maxSize := by decide +kernel
  have roomy : db.Room (db.volumes.cost [118] + indexCost [107] + 100) :=
    fresh.roomAlone _ ((Nat.add_le_add_left cost _).trans fits)
  refine .bind (setNow_returns fresh.models (by decide) fun _ =>
    roomy.mono (Nat.le_add_right _ _)) ?_
  rintro _ next ⟨addr, effect⟩
  exact .bind (returns next addr effect (effect.room 100 roomy)) fun _ _ holds =>
    Exec.Returns.pure holds

/-- Setting a key and deleting it again is a careful run. -/
theorem count_bounds_setDelete :
    (countRun [.set [107] [118], .delete [107]] History.unsynced.opened.state []).failed = false ∧
      (countRun [.set [107] [118], .delete [107]] History.unsynced.opened.state
        []).state.CountBounds := by
  have fresh := History.unsynced_fresh
  generalize History.unsynced.opened.state = db at fresh ⊢
  have returns : (countRun [.set [107] [118], .delete [107]]).Returns True db fun _ _ => True := by
    refine set_then (le_refl 1) fresh fun next addr effect roomy => ?_
    exact .mono (deleteNow_returns effect.models fun _ =>
      roomy.mono (by decide +kernel)) fun _ _ _ => trivial
  have clean := (returns.undisturbed trivial).1
  refine ⟨clean, count_bounds fresh clean ?_⟩
  intro before step later split
  have isStep : step ∈ [CountStep.set [107] [118], .delete [107]] := by
    rw [split]
    simp
  rcases List.mem_cons.mp isStep with rfl | isDelete
  · exact (by decide : [107].length ≤ 65535)
  · rw [List.mem_singleton.mp isDelete]
    trivial

/-- A key is set, and a primary deletes another key, which was never in use.  Now the index
counts nothing and has a key. -/
theorem receive_uncounts :
    (countRun [.set [107] [118], .receive (.ofDelete [108])]
        History.unsynced.opened.state []).res = .ok () ∧
      (countRun [.set [107] [118], .receive (.ofDelete [108])]
        History.unsynced.opened.state []).state.hindex.entryCount.toInt = 0 ∧
      InUse (countRun [.set [107] [118], .receive (.ofDelete [108])]
        History.unsynced.opened.state []).state [107] := by
  have fresh := History.unsynced_fresh
  generalize History.unsynced.opened.state = db at fresh ⊢
  have returns : (countRun [.set [107] [118], .receive (.ofDelete [108])]).Returns True db
      fun _ final => final.hindex.entryCount.toInt = 0 ∧ InUse final [107] := by
    refine set_then (le_refl 1) fresh fun next addr effect roomy => ?_
    refine .mono (@applyReplicationEntry_removes next _ True (.ofDelete [108]) rfl
      (by decide +kernel) effect.models fun _ => roomy.mono (by decide +kernel)) ?_
    rintro _ final ⟨change, removed, rowsEq, countEq⟩
    constructor
    · rw [removed.count_eq, countEq, effect.count_eq, fresh.count_eq]
      rfl
    · rw [removed.models.inUse_iff, rowsEq]
      rfl
  have clean := (returns.undisturbed trivial).1
  rcases returns.correct [] clean with ⟨_, resEq, holds⟩
  exact ⟨resEq, holds⟩

end DB

end BriseDB
