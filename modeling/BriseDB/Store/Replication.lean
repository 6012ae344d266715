import BriseDB.Store.LastWrite
import BriseDB.Store.LongKeys
import BriseDB.Store.Restart

/-!
# Replicas

A replica first applies a snapshot of the primary and then the records that the
primary sends it.  Each record stands for an update of one key, and applying
records carries these updates out on the map the replica stands for.
-/

namespace BriseDB

open Index (Enumerates)

namespace WalEntry

/-- The update a record of the replication stream stands for. -/
def received (e : WalEntry) : Update :=
  (e.key, match e.type with
    | .set => some (e.value, e.expiresAt)
    | .delete => none)

/-- The record comes back from its line as it was sent. -/
def Decodes (e : WalEntry) : Prop :=
  e.wire = e

instance (e : WalEntry) : Decidable e.Decodes :=
  inferInstanceAs (Decidable (_ = _))

end WalEntry

/-- A record that is sent for an update stands for it. -/
theorem Update.received_sent (u : Update) : u.sent.received = u := by
  rcases u with ⟨key, _ | ⟨value, expiresAt⟩⟩ <;> rfl

namespace DB

section

variable {db : DB} {rows : Rows} {room : Prop}

/-- The channels of the replicas are no part of the map. -/
theorem Models.with_replicas (models : db.Models rows) (replicas : List ReplicaChannel) :
    Models { db with replicas := replicas } rows :=
  ⟨models.index, models.pool, models.holds, models.cached, models.expiring,
    ⟨models.logOK.walErr_eq, models.logOK.writer_eq, models.logOK.always⟩⟩

/-! ## Applying records -/

/-- The bytes that applying a record takes. -/
def receiveCost (db : DB) (e : WalEntry) : Nat :=
  (match e.type with
    | .set => db.volumes.cost e.value
    | .delete => 0) + indexCost e.key

/-- `db` has become `next`, which stands for `after`, by applying records that took at
most `cost` bytes.  Nothing was sent on. -/
def Applied (db next : DB) (after : Values) (cost : Nat) : Prop :=
  ∃ change, Effect db next change ∧ change.rows.values = after ∧ change.sent = [] ∧
    change.cost = cost

theorem Applied.refl (models : db.Models rows) : Applied db db rows.values 0 :=
  ⟨_, .refl models, rfl, rfl, rfl⟩

theorem Applied.trans {next last : DB} {middle after : Values} {early late : Nat}
    (left : Applied db next middle early) (right : Applied next last after late) :
    Applied db last after (early + late) := by
  rcases left with ⟨first, firstEffect, -, firstSent, rfl⟩
  rcases right with ⟨second, secondEffect, rfl, secondSent, rfl⟩
  exact ⟨_, firstEffect.trans secondEffect, rfl, by simp [Change.andThen, firstSent, secondSent],
    rfl⟩

theorem Applied.models {next : DB} {after : Values} {cost : Nat}
    (applied : Applied db next after cost) :
    ∃ rows, next.Models rows ∧ rows.values = after := by
  rcases applied with ⟨change, effect, rfl, -⟩
  exact ⟨_, effect.models, rfl⟩

/-- Applying a record carries out the update that is decoded from its line. -/
theorem applyReplicationEntry_returns (models : db.Models rows) {e : WalEntry}
    (keyFits : e.wire.key.length ≤ 65535) (roomy : room → db.Room (db.receiveCost e.wire)) :
    (applyReplicationEntry e).Returns room db fun _ next =>
      Applied db next (KeyLog.apply rows.values e.wire.received) (db.receiveCost e.wire) := by
  unfold applyReplicationEntry
  cases type : e.wire.type with
  | delete =>
      have costEq : db.receiveCost e.wire = indexCost e.wire.key := by
        simp [receiveCost, type]
      have updateEq : e.wire.received = (e.wire.key, none) := by
        simp [WalEntry.received, type]
      rw [costEq] at roomy ⊢
      simp only [type]
      refine .bind (applyEntry_delete_returns models type keyFits roomy) ?_
      intro _ updated rowEffect
      refine .mono (writeWAL_returns rowEffect.models _) ?_
      intro _ next logEffect
      refine ⟨_, rowEffect.trans logEffect, ?_, rfl, Nat.add_zero _⟩
      rw [updateEq]
      exact Rows.values_update rows e.wire.key none
  | set =>
      have costEq : db.receiveCost e.wire =
          db.volumes.cost e.wire.value + indexCost e.wire.key := by
        simp [receiveCost, type]
      have updateEq : e.wire.received = (e.wire.key, some (e.wire.value, e.wire.expiresAt)) := by
        simp [WalEntry.received, type]
      rw [costEq] at roomy ⊢
      simp only [type]
      refine .bind (write_blob_returns models roomy _) ?_
      rintro addr written ⟨blobEffect, holds⟩
      refine .bind (@applyEntry_set_returns written rows room blobEffect.models
        ⟨.set, e.wire.key, e.wire.value, addr.volumeID, addr.offset, addr.size, e.wire.expiresAt⟩
          rfl
        keyFits _ holds fun enough => blobEffect.room _ (roomy enough)) ?_
      intro _ updated rowEffect
      refine .mono (writeWAL_returns rowEffect.models _) ?_
      intro _ next logEffect
      refine ⟨_, (blobEffect.trans rowEffect).trans logEffect, ?_, rfl, rfl⟩
      rw [updateEq]
      exact Rows.values_update rows e.wire.key _

/-- Apply the records of a snapshot, as `DialReplica` does. -/
def applySnapshot (entries : List WalEntry) : Exec DB Unit :=
  Exec.each entries fun e => Exec.wrap "replica: apply snapshot entry" (applyReplicationEntry e)

/-- Applying records carries out their updates one after the other. -/
theorem applySnapshot_returns (models : db.Models rows) {entries : List WalEntry}
    (keysFit : ∀ e ∈ entries, e.wire.key.length ≤ 65535)
    (roomy : room → db.Room (entries.map fun e => db.receiveCost e.wire).sum) :
    (applySnapshot entries).Returns room db fun _ next =>
      Applied db next (KeyLog.run rows.values (entries.map fun e => e.wire.received))
        (entries.map fun e => db.receiveCost e.wire).sum := by
  refine .each (fun (done : List WalEntry) mid =>
    Applied db mid (KeyLog.run rows.values (done.map fun e => e.wire.received))
      (done.map fun e => db.receiveCost e.wire).sum) ?_ (.refl models)
  intro before e later mid split applied
  have appliedAll := applied
  rcases applied with ⟨change, effect, valuesEq, -, costEq⟩
  have sameCost : mid.receiveCost e.wire = db.receiveCost e.wire := by
    unfold receiveCost VolumePool.cost
    rw [effect.factor_eq]
  refine .mono (.wrap (applyReplicationEntry_returns effect.models
    (keysFit e (by simp [split])) fun enough => effect.room _ ((roomy enough).mono ?_))) ?_
  · rw [sameCost, costEq, split]
    simp only [List.map_append, List.map_cons, List.sum_append, List.sum_cons]
    omega
  · intro _ next last
    rw [sameCost, valuesEq] at last
    rw [List.map_append, KeyLog.run_append, List.map_append, List.sum_append]
    exact appliedAll.trans last

end

/-! ## Snapshots -/

/-- The values that have not expired. -/
def live (values : Values) (t : Time) : Values :=
  fun key => (values key).filter fun entry => ¬ Session.expiredAt t entry.2

theorem values_prune (rows : Rows) (t : Time) :
    (rows.prune t).values = live rows.values t := by
  funext key
  change ((rows key).filter _).map _ = ((rows key).map _).filter _
  cases rows key with
  | none => rfl
  | some row =>
      by_cases expired : Session.expiredAt t row.expiresAt <;> simp [Option.filter, expired]

section

variable {db : DB} {rows : Rows} {room : Prop}

/-- The record of a snapshot for a visited entry whose value has been read. -/
def snapshotEntry (rows : Rows) (visit : Index.Visit) : WalEntry :=
  WalEntry.ofValue visit.key (((rows visit.key).map Row.value).getD []) visit.expiresAt

theorem snapshotEntries_returns (models : db.Models rows) (visits : List Index.Visit)
    (stored : ∀ visit ∈ visits, rows.content visit.key = some (visit.addr, visit.expiresAt)) :
    (snapshotEntries visits).Returns room db fun entries next =>
      entries = visits.map (snapshotEntry rows) ∧ Effect db next (.idle rows db.expiry) := by
  induction visits generalizing db with
  | nil => exact .pure ⟨rfl, .refl models⟩
  | cons visit rest ih =>
      rcases List.forall_mem_cons.mp stored with ⟨isStored, restStored⟩
      rcases Rows.content_eq_some.mp isStored with ⟨row, isRow, entryEq⟩
      have holds := models.holds visit.key row isRow
      rw [(Prod.mk.inj entryEq).1] at holds
      refine .bind_attempt (.zoom (VolumePool.read_returns models.pool holds)) ?_
      rintro _ _ ⟨volumes, rfl, rfl, consulted⟩
      have effect := models.effect_consulted consulted
      refine .bind (ih effect.models restStored) ?_
      rintro _ next ⟨rfl, restEffect⟩
      refine .pure ⟨?_, (effect.trans restEffect).of_eq ?_⟩
      · simp [snapshotEntry, isRow]
      · simp [Change.andThen, Change.idle]

/-- A snapshot has one record for each row that has not expired. -/
theorem snapshot_returns (models : db.Models rows) (now : Clock) (order : RangeOrder Key) :
    (snapshot now order).Returns room db fun entries next =>
      Effect db next (.idle rows db.expiry) ∧ (entries.map WalEntry.key).Nodup ∧
        (∀ e ∈ entries, ∃ row, rows e.key = some row ∧ ¬ Session.expiredAt now row.expiresAt ∧
          e = WalEntry.ofValue e.key row.value row.expiresAt) ∧
        ∀ key, KeyLog.last (entries.map WalEntry.received) key =
          (live rows.values now key).map some := by
  rcases models.index.forEach_eq (Time.unixNano now.1) order with ⟨calls, callsEq, enumerates⟩
  rw [Clock.ofNano_unixNano] at callsEq
  have stored : ∀ visit ∈ calls, rows.content visit.key = some (visit.addr, visit.expiresAt) :=
    fun visit isCall => ((enumerates.mem_iff visit).mp isCall).1
  have live : ∀ visit ∈ calls, ∃ row, rows visit.key = some row ∧
      row.expiresAt = visit.expiresAt ∧ ¬ Session.expiredAt now row.expiresAt := by
    intro visit isCall
    rcases Rows.content_eq_some.mp (stored visit isCall) with ⟨row, isRow, entryEq⟩
    refine ⟨row, isRow, (Prod.mk.inj entryEq).2, ?_⟩
    rw [(Prod.mk.inj entryEq).2, ← Clock.ofNano_unixNano, expiredAt_ofNano]
    exact ((enumerates.mem_iff visit).mp isCall).2
  unfold snapshot
  refine .bind_ask callsEq (.mono (snapshotEntries_returns models calls stored) ?_)
  rintro _ next ⟨rfl, effect⟩
  refine ⟨effect, ?_, ?_, fun key => ?_⟩
  · rw [List.map_map]
    exact enumerates.nodup
  · intro e isEntry
    rcases List.mem_map.mp isEntry with ⟨visit, isCall, rfl⟩
    rcases live visit isCall with ⟨row, isRow, expiryEq, alive⟩
    refine ⟨row, isRow, alive, ?_⟩
    simp [snapshotEntry, WalEntry.ofValue, isRow, expiryEq]
  · have keysEq : ((calls.map (snapshotEntry rows)).map WalEntry.received).map Prod.fst =
        calls.map Index.Visit.key := by
      simp only [List.map_map]
      rfl
    rw [← values_prune, Rows.values]
    cases isRow : rows.prune now key with
    | none =>
        apply KeyLog.last_eq_none
        rintro u member rfl
        have isKey : u.1 ∈ calls.map Index.Visit.key := keysEq ▸ List.mem_map_of_mem member
        rcases List.mem_map.mp isKey with ⟨visit, isCall, keyEq⟩
        rcases live visit isCall with ⟨row, isLive, -, alive⟩
        rw [← keyEq, Rows.prune_eq_some.mpr ⟨isLive, alive⟩] at isRow
        cases isRow
    | some row =>
        rcases Rows.prune_eq_some.mp isRow with ⟨isStored, alive⟩
        apply KeyLog.last_of_mem
        · rw [keysEq]
          exact enumerates.nodup
        · have isCall : (⟨key, row.addr, row.expiresAt⟩ : Index.Visit) ∈ calls := by
            refine (enumerates.mem_iff _).mpr ⟨Rows.content_eq_some.mpr ⟨row, isStored, rfl⟩, ?_⟩
            rwa [← expiredAt_ofNano, Clock.ofNano_unixNano]
          refine List.mem_map.mpr ⟨_, List.mem_map_of_mem isCall, ?_⟩
          simp [snapshotEntry, WalEntry.received, WalEntry.ofValue, isStored]

end

/-- What the database shows of a key at an instant: the stored value and its expiry,
unless it has expired. -/
def shownAt (db : DB) (t : Time) (key : Key) : Res (Option (Bytes × Int64)) :=
  (db.stored key).bind fun found =>
    .ok (found.filter fun entry => ¬ Session.expiredAt t entry.2)

theorem shownAt_eq {db : DB} {rows : Rows} (models : db.Models rows) (t : Time) (key : Key) :
    db.shownAt t key = .ok (live rows.values t key) := by
  rw [shownAt, stored_eq models]
  rfl

/-- After a snapshot, a key that the primary shows has the primary's value and expiry
on the replica, and any other key is as it was. -/
theorem applySnapshot_stored {primary replica : DB} {rows held : Rows}
    (models : primary.Models rows) (replicaModels : replica.Models held) (now : Clock)
    (order : RangeOrder Key) (faults applyFaults : List Fault) {entries : List WalEntry}
    (taken : (snapshot now order primary faults).res = .ok entries)
    (clean : (snapshot now order primary faults).failed = false)
    (decodes : ∀ e ∈ entries, e.Decodes)
    (applyClean : (applySnapshot entries replica applyFaults).failed = false) :
    (applySnapshot entries replica applyFaults).res = .ok () ∧
      ∀ key, (applySnapshot entries replica applyFaults).state.stored key =
        (primary.shownAt now key).bind fun found =>
          match found with
          | some entry => .ok (some entry)
          | none => replica.stored key := by
  have snapshotted : (snapshot now order).Returns False primary _ :=
    snapshot_returns models now order
  rcases snapshotted.correct faults clean with ⟨found, takenEq, -, -, isRow, lasts⟩
  obtain rfl : entries = found := Res.ok.inj (taken.symm.trans takenEq)
  have keysFit : ∀ e ∈ entries, e.wire.key.length ≤ 65535 := by
    intro e isEntry
    rcases isRow e isEntry with ⟨row, stored, -⟩
    rw [decodes e isEntry]
    exact key_fits models stored
  have receivedEq : (entries.map fun e => e.wire.received) = entries.map WalEntry.received :=
    List.map_congr_left fun e isEntry => congrArg WalEntry.received (decodes e isEntry)
  rcases (applySnapshot_returns replicaModels keysFit False.elim).correct applyFaults
    applyClean with
    ⟨_, resEq, applied⟩
  rcases applied.models with ⟨after, afterModels, valuesEq⟩
  refine ⟨resEq, fun key => ?_⟩
  rw [stored_eq afterModels, shownAt_eq models, stored_eq replicaModels, valuesEq, receivedEq,
    KeyLog.run_apply, lasts key]
  cases live rows.values now key <;> rfl

end DB

/-- One key is set in a new database. -/
def History.oneValue (value : Bytes) : History :=
  .undisturbed ⟨0, 0, 1, 0, .no⟩ [(.epoch, .call 0 (.set [107] value))]

theorem History.oneValue_models {value : Bytes} (short : value.length ≤ 100) :
    ∃ rows, (History.oneValue value).final.db.Models rows ∧
      rows.values = Function.update (fun _ => none) [107] (some (value, 0)) := by
  have small : (History.oneValue value).Small .no := rfl
  have returned : ∀ db, DB.Fresh db [] (History.oneValue value).opt →
      (History.oneValue value).run.exec.Returns True (World.ofDB db) fun _ w =>
        ∃ rows, w.db.Models rows ∧
          rows.values = Function.update (fun _ => none) [107] (some (value, 0)) := by
    intro db fresh
    refine .bind (Call.Direct.event (Call.direct_set (DB.setNow_returns fresh.models
      (by decide) fun _ => fresh.roomAlone _ ?_)) 0) ?_
    · have bound : DB.freshBytes + 1000 ≤ File.maxSize := by decide +kernel
      have costEq : DB.indexCost [107] = 40 := rfl
      rw [fresh.cost (le_refl 1), costEq]
      omega
    · rintro _ _ ⟨next, rfl, addr, effect⟩
      exact .pure ⟨_, effect.models, Rows.values_update _ _ _⟩
  exact (small.final returned).2.2

/-- The snapshot of a database with one key. -/
theorem History.oneValue_snapshot {value : Bytes} (short : value.length ≤ 100) (now : Clock) :
    (DB.snapshot now (.asStored _) (History.oneValue value).final.db []).res =
        .ok [WalEntry.ofValue [107] value 0] ∧
      (DB.snapshot now (.asStored _) (History.oneValue value).final.db []).failed = false := by
  rcases History.oneValue_models short with ⟨rows, models, valuesEq⟩
  have returns : (DB.snapshot now (.asStored _)).Returns True _ _ :=
    DB.snapshot_returns models now (.asStored _)
  have clean := (returns.undisturbed trivial).1
  rcases returns.correct [] clean with ⟨entries, resEq, -, nodup, isRow, lasts⟩
  refine ⟨resEq.trans (congrArg Res.ok ?_), clean⟩
  have single : ∀ e ∈ entries, e = WalEntry.ofValue [107] value 0 := by
    intro e isEntry
    rcases isRow e isEntry with ⟨row, stored, -, entryEq⟩
    have values : rows.values e.key = some (row.value, row.expiresAt) := by
      simp [Rows.values, stored]
    rw [valuesEq] at values
    by_cases isKey : e.key = [107]
    · rw [isKey, Function.update_self] at values
      rcases Prod.mk.inj (Option.some.inj values) with ⟨valueEq, expiryEq⟩
      rw [entryEq, isKey, ← valueEq, ← expiryEq]
    · rw [Function.update_of_ne isKey] at values
      cases values
  have found : KeyLog.last (entries.map WalEntry.received) [107] ≠ none := by
    rw [lasts, DB.live, valuesEq, Function.update_self]
    simp [Option.filter, Session.expiredAt]
  rcases entries with _ | ⟨first, _ | ⟨second, rest⟩⟩
  · exact absurd rfl found
  · rw [single first (by simp)]
  · rw [single first (by simp), single second (by simp)] at nodup
    simp at nodup

/-- A new replica applies the snapshot of a database with one key. -/
theorem History.unsynced_applies {value : Bytes} (short : (Json.sanitize value).length ≤ 100) :
    (DB.applySnapshot [WalEntry.ofValue [107] value 0] History.unsynced.opened.state []).failed =
        false ∧
      (DB.applySnapshot [WalEntry.ofValue [107] value 0]
        History.unsynced.opened.state []).state.stored [107] =
        .ok (some (Json.sanitize value, 0)) := by
  have fresh := History.unsynced_fresh
  have clean : Json.sanitize [107] = [107] := by decide
  have wireEq : (WalEntry.ofValue [107] value 0).wire =
      WalEntry.ofValue [107] (Json.sanitize value) 0 := by
    rw [WalEntry.wire, WalEntry.ofValue, clean]
    rfl
  have keysFit : ∀ e ∈ [WalEntry.ofValue [107] value 0], e.wire.key.length ≤ 65535 := by
    intro e isEntry
    rw [List.mem_singleton.mp isEntry, wireEq]
    exact (by decide : [107].length ≤ 65535)
  have roomy : History.unsynced.opened.state.Room
      ([WalEntry.ofValue [107] value 0].map fun e =>
        History.unsynced.opened.state.receiveCost e.wire).sum := by
    refine fresh.roomAlone _ ?_
    have bound : DB.freshBytes + 1000 ≤ File.maxSize := by decide +kernel
    have costEq : DB.receiveCost History.unsynced.opened.state
        (WalEntry.ofValue [107] (Json.sanitize value) 0) = 8 + (Json.sanitize value).length + 40 :=
      congrArg (· + 40) (fresh.cost (le_refl 1) _)
    rw [List.map_singleton, List.sum_singleton, wireEq, costEq]
    omega
  have returns := @DB.applySnapshot_returns _ _ True fresh.models _ keysFit fun _ => roomy
  have ran := (returns.undisturbed trivial).1
  rcases returns.correct [] ran with ⟨_, -, applied⟩
  rcases applied.models with ⟨rows, models, valuesEq⟩
  refine ⟨ran, ?_⟩
  rw [DB.stored_eq models, valuesEq, List.map_singleton, wireEq, KeyLog.run_apply]
  rfl

/-- A replica with two keys has room for the third one. -/
theorem DB.FirstDue.applies {db : DB} {rows : Rows} (due : db.FirstDue rows) :
    (DB.applySnapshot [WalEntry.ofValue [107] [118] 0] db []).failed = false := by
  have costEq : ([WalEntry.ofValue [107] [118] 0].map fun e => db.receiveCost e.wire).sum = 49 := by
    change VolumePool.cost db.volumes [118] + DB.indexCost [107] + 0 = 49
    rw [VolumePool.cost, due.stocked.factor_eq]
    rfl
  have returns := @DB.applySnapshot_returns db rows True due.stocked.models
    [WalEntry.ofValue [107] [118] 0] (by decide) fun _ =>
      due.stocked.room.mono (by rw [costEq]; decide)
  exact (returns.undisturbed trivial).1

/-- The two keys that the replica has stay there beside the one it receives. -/
theorem DB.applySnapshot_stored_twoKeys :
    (DB.applySnapshot [WalEntry.ofValue [107] [118] 0] History.twoLifetimes.final.db []).res =
        .ok () ∧
      ∀ key, (DB.applySnapshot [WalEntry.ofValue [107] [118] 0]
        History.twoLifetimes.final.db []).state.stored key =
        ((History.oneValue [118]).final.db.shownAt 5 key).bind fun found =>
          match found with
          | some entry => .ok (some entry)
          | none => History.twoLifetimes.final.db.stored key := by
  rcases History.oneValue_models (show ([118] : Bytes).length ≤ 100 by decide) with ⟨_, models, -⟩
  rcases History.oneValue_snapshot (show ([118] : Bytes).length ≤ 100 by decide)
    ⟨5, by decide⟩ with ⟨taken, clean⟩
  rcases History.twoLifetimes_final with ⟨_, due⟩
  exact DB.applySnapshot_stored models due.stocked.models ⟨5, by decide⟩ (.asStored _) [] [] taken
    clean (by decide) due.applies

/-- A key that the primary does not have stays on the replica, and a value that is not
UTF-8 arrives changed. -/
theorem DB.applySnapshot_differs :
    ((DB.snapshot 5 (.asStored _) History.unsynced.opened.state []).res = .ok [] ∧
        (DB.snapshot 5 (.asStored _) History.unsynced.opened.state []).failed = false ∧
        (DB.applySnapshot [] (History.oneValue [118]).final.db []).failed = false ∧
        History.unsynced.opened.state.shownAt 5 [107] = .ok none ∧
        (DB.applySnapshot [] (History.oneValue [118]).final.db []).state.shownAt 5 [107] =
          .ok (some ([118], 0))) ∧
      ((DB.snapshot 5 (.asStored _) (History.oneValue [255]).final.db []).res =
          .ok [WalEntry.ofValue [107] [255] 0] ∧
        (DB.snapshot 5 (.asStored _) (History.oneValue [255]).final.db []).failed = false ∧
        (DB.applySnapshot [WalEntry.ofValue [107] [255] 0]
          History.unsynced.opened.state []).failed = false ∧
        (DB.applySnapshot [WalEntry.ofValue [107] [255] 0]
          History.unsynced.opened.state []).state.stored [107] = .ok (some ([239, 191, 189], 0)) ∧
        (History.oneValue [255]).final.db.stored [107] = .ok (some ([255], 0))) := by
  have fresh := History.unsynced_fresh
  have sanitized : Json.sanitize [255] = [239, 191, 189] := by decide
  constructor
  · have returns : (DB.snapshot 5 (.asStored _)).Returns True History.unsynced.opened.state _ :=
      DB.snapshot_returns fresh.models ⟨5, by decide⟩ (.asStored _)
    have clean := (returns.undisturbed trivial).1
    rcases returns.correct [] clean with ⟨entries, resEq, -, -, isRow, -⟩
    obtain rfl : entries = [] := by
      refine List.eq_nil_iff_forall_not_mem.mpr fun e isEntry => ?_
      rcases isRow e isEntry with ⟨_, stored, -⟩
      cases stored
    rcases History.oneValue_models (show ([118] : Bytes).length ≤ 100 by decide) with
      ⟨rows, models, valuesEq⟩
    have nothing : ∀ db : DB, (DB.applySnapshot [] db []).state = db := fun _ => rfl
    refine ⟨resEq, clean, rfl, DB.shownAt_eq fresh.models 5 [107], ?_⟩
    rw [nothing, DB.shownAt_eq models, DB.live, valuesEq, Function.update_self]
    rfl
  · rcases History.oneValue_models (show ([255] : Bytes).length ≤ 100 by decide) with
      ⟨rows, models, valuesEq⟩
    rcases History.oneValue_snapshot (show ([255] : Bytes).length ≤ 100 by decide)
      ⟨5, by decide⟩ with ⟨taken, clean⟩
    rcases History.unsynced_applies (show (Json.sanitize [255]).length ≤ 100 by decide) with
      ⟨applyClean, stored⟩
    rw [sanitized] at stored
    refine ⟨taken, clean, applyClean, stored, ?_⟩
    rw [DB.stored_eq models, valuesEq, Function.update_self]

end BriseDB
