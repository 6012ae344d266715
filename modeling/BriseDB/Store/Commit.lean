import BriseDB.Store.Effects

/-!
# The effect of a commit

An outermost commit stores the blobs of its transaction, updates the index for
all written and deleted keys, and then logs and sends one record for each of
them.
-/

namespace BriseDB

open DB (Effect Change)
open Session (PendingSet)

/-- The row a pending write stores. -/
def Session.PendingSet.row (ps : PendingSet) : Row :=
  ⟨ps.addr, ps.expiresAt, ps.value⟩

namespace Rows

/-- Store the rows of pending writes, in order. -/
def putAll (rows : Rows) (sets : List PendingSet) : Rows :=
  sets.foldl (fun rows ps => Function.update rows ps.key (some ps.row)) rows

/-- Remove the rows of the given keys. -/
def removeAll (rows : Rows) (keys : List Key) : Rows :=
  keys.foldl (fun rows key => Function.update rows key none) rows

theorem putAll_append (rows : Rows) (first second : List PendingSet) :
    rows.putAll (first ++ second) = (rows.putAll first).putAll second :=
  List.foldl_append

theorem removeAll_append (rows : Rows) (first second : List Key) :
    rows.removeAll (first ++ second) = (rows.removeAll first).removeAll second :=
  List.foldl_append

theorem removeAll_apply (rows : Rows) (keys : List Key) (key : Key) :
    rows.removeAll keys key = if key ∈ keys then none else rows key := by
  induction keys generalizing rows with
  | nil => rfl
  | cons first rest ih =>
      change (Rows.removeAll (Function.update rows first none) rest) key = _
      rw [ih]
      by_cases isFirst : key = first
      · simp [isFirst]
      · simp [isFirst]

end Rows

namespace DB

section

variable {db : DB} {rows : Rows}

/-- `db` has become `next`, which stands for `after`, by calls that logged and sent
the given records and took at most `cost` bytes. -/
def Changed (db next : DB) (after : Rows) (logged sent : List WalEntry) (cost : Nat) : Prop :=
  ∃ change, Effect db next change ∧ change.rows = after ∧ change.logged = logged ∧
    change.sent = sent ∧ change.cost = cost

theorem Changed.refl (models : db.Models rows) : Changed db db rows [] [] 0 :=
  ⟨_, .refl models, rfl, rfl, rfl, rfl⟩

theorem Effect.changed {next : DB} {change : Change} (effect : Effect db next change) :
    Changed db next change.rows change.logged change.sent change.cost :=
  ⟨change, effect, rfl, rfl, rfl, rfl⟩

section

variable {next : DB} {after : Rows} {logged sent : List WalEntry} {cost : Nat}

theorem Changed.models (changed : Changed db next after logged sent cost) : next.Models after := by
  obtain ⟨change, effect, rfl, _⟩ := changed
  exact effect.models

theorem Changed.keeps (changed : Changed db next after logged sent cost) :
    db.volumes.localVM.Extends next.volumes.localVM := by
  obtain ⟨change, effect, _⟩ := changed
  exact effect.keeps

theorem Changed.room (changed : Changed db next after logged sent cost) {bytes : Nat}
    (roomy : db.Room (cost + bytes)) : next.Room bytes := by
  obtain ⟨change, effect, _, _, _, rfl⟩ := changed
  exact effect.room bytes roomy

theorem Changed.volumes_cost (changed : Changed db next after logged sent cost) (data : Bytes) :
    next.volumes.cost data = db.volumes.cost data := by
  obtain ⟨change, effect, _⟩ := changed
  rw [VolumePool.cost, effect.factor_eq, VolumePool.cost]

theorem Changed.trans {last : DB} {later : Rows} {moreLogged moreSent : List WalEntry}
    {more : Nat} (left : Changed db next after logged sent cost)
    (right : Changed next last later moreLogged moreSent more) :
    Changed db last later (logged ++ moreLogged) (sent ++ moreSent) (cost + more) := by
  obtain ⟨early, leftEffect, _, rfl, rfl, rfl⟩ := left
  obtain ⟨late, rightEffect, rfl, rfl, rfl, rfl⟩ := right
  exact ⟨_, leftEffect.trans rightEffect, rfl, rfl, rfl, rfl⟩

end

variable {room : Prop}

/-- The bytes that storing the blobs of a transaction takes. -/
def blobsCost (db : DB) (entries : List (Key × Bytes)) : Nat :=
  (entries.map fun entry => db.volumes.cost entry.2).sum

/-- The first loop of a commit: all blobs are stored, and nothing refers to them
yet. -/
theorem writeBlobs_returns (tx : Transaction) (entries : List (Key × Bytes))
    (models : db.Models rows) (roomy : room → db.Room (db.blobsCost entries)) :
    (Session.writeBlobs tx entries).Returns room db fun sets next =>
      Changed db next rows [] [] (db.blobsCost entries) ∧
        (sets.map fun ps => (ps.key, ps.value)) = entries ∧
        ∀ ps ∈ sets, ps.expiresAt = tx.expiresAt ps.key ∧
          next.volumes.localVM.Holds ps.addr ps.value := by
  induction entries generalizing db with
  | nil => exact .pure ⟨.refl models, rfl, nofun⟩
  | cons entry rest ih =>
      obtain ⟨key, value⟩ := entry
      have costEq : db.blobsCost ((key, value) :: rest) =
          db.volumes.cost value + db.blobsCost rest := by
        simp [blobsCost]
      rw [costEq] at roomy ⊢
      refine .bind (.wrap (onVolumes_stored models
        (VolumePool.write_returns models.pool fun enough =>
          ((roomy enough).mono (Nat.le_add_right _ _)).2))) ?_
      rintro addr written ⟨blobEffect, holds⟩
      have sameCost : written.blobsCost rest = db.blobsCost rest := by
        simp only [blobsCost, blobEffect.changed.volumes_cost]
      refine .bind (ih blobEffect.models fun enough => ?_) ?_
      · rw [sameCost]
        exact blobEffect.room _ (roomy enough)
      · rintro sets next ⟨changed, entriesEq, stored⟩
        rw [sameCost] at changed
        refine .pure ⟨?_, by rw [List.map_cons, entriesEq], ?_⟩
        · exact blobEffect.changed.trans changed
        · intro ps mem
          rcases List.mem_cons.mp mem with rfl | isRest
          · exact ⟨rfl, changed.keeps.holds _ _ holds⟩
          · exact stored ps isRest

/-- The bytes that index operations on the given keys take. -/
def keysCost (keys : List Key) : Nat :=
  (keys.map indexCost).sum

theorem keysCost_append (first second : List Key) :
    keysCost (first ++ second) = keysCost first + keysCost second := by
  simp [keysCost]

/-- The locked section of a commit. -/
theorem commitLocked_returns {sets : List PendingSet} (deletes : List Key)
    (models : db.Models rows) (keyFits : ∀ ps ∈ sets, ps.key.length ≤ 65535)
    (holds : ∀ ps ∈ sets, db.volumes.localVM.Holds ps.addr ps.value)
    (roomy : room → db.Room (keysCost (sets.map PendingSet.key) + keysCost deletes)) :
    (Session.commitLocked sets deletes).Returns room db fun _ next =>
      Changed db next ((rows.putAll sets).removeAll deletes) [] []
        (keysCost (sets.map PendingSet.key) + keysCost deletes) := by
  unfold Session.commitLocked
  refine .through (fun _ mid =>
      Changed db mid (rows.putAll sets) [] [] (keysCost (sets.map PendingSet.key)))
    (.each (fun done mid =>
      Changed db mid (rows.putAll done) [] [] (keysCost (done.map PendingSet.key))) ?_
      (.refl models)) ?_
  · intro before ps after mid split changed
    have isSet : ps ∈ sets := by simp [split]
    refine .mono (@setExpiryFirst_returns mid _ room ps.key changed.models
      (keyFits ps isSet) "commit: update index" ps.row _
      (changed.keeps.holds _ _ (holds ps isSet)) (fun _ isCached => expiryFits_cachedFor isCached)
      fun enough => changed.room ((roomy enough).mono ?_)) ?_
    · rw [split]
      simp only [keysCost, List.map_append, List.map_cons, List.sum_append, List.sum_cons]
      omega
    · intro _ next effect
      have both := changed.trans effect.changed
      rw [Rows.putAll_append, List.map_append, keysCost_append]
      exact both
  · intro _ stored storedChanged
    refine .each (fun done mid =>
      Changed db mid ((rows.putAll sets).removeAll done) [] []
        (keysCost (sets.map PendingSet.key) + keysCost done)) ?_ storedChanged
    intro before key after mid split changed
    refine .mono (commitDelete_returns changed.models
      fun enough => changed.room ((roomy enough).mono ?_)) ?_
    · rw [split]
      simp only [keysCost, List.map_append, List.map_cons, List.sum_append, List.sum_cons]
      omega
    · rintro _ next ⟨count, effect⟩
      have both := changed.trans effect.changed
      rw [Rows.removeAll_append, keysCost_append, ← Nat.add_assoc]
      exact both

/-- The log records of a commit. -/
def commitLogged (sets : List PendingSet) (deletes : List Key) : List WalEntry :=
  sets.map (fun ps => WalEntry.ofSet ps.key ps.addr ps.expiresAt) ++
    deletes.map WalEntry.ofDelete

/-- The records a commit sends to the replicas. -/
def commitSent (sets : List PendingSet) (deletes : List Key) : List WalEntry :=
  sets.map (fun ps => WalEntry.ofValue ps.key ps.value ps.expiresAt) ++
    deletes.map WalEntry.ofDelete

theorem commitLog_returns (sets : List PendingSet) (deletes : List Key)
    (models : db.Models rows) :
    (Session.commitLog sets deletes).Returns room db fun _ next =>
      Changed db next rows (commitLogged sets deletes) (commitSent sets deletes) 0 := by
  unfold Session.commitLog
  refine .through (fun _ mid =>
      Changed db mid rows (commitLogged sets []) (commitSent sets []) 0)
    (.each (fun done mid =>
      Changed db mid rows (commitLogged done []) (commitSent done []) 0) ?_ (.refl models)) ?_
  · intro before ps after mid split changed
    refine .mono (record_returns changed.models _ _) ?_
    intro _ next effect
    have both := changed.trans effect.changed
    simpa [commitLogged, commitSent, Change.idle, WalEntry.ofSet] using both
  · intro _ stored storedChanged
    refine .each (fun done mid =>
      Changed db mid rows (commitLogged sets done) (commitSent sets done) 0) ?_ storedChanged
    intro before key after mid split changed
    refine .mono (record_returns changed.models _ _) ?_
    intro _ next effect
    have both := changed.trans effect.changed
    simpa [commitLogged, commitSent, Change.idle, WalEntry.ofDelete] using both

/-- The bytes that an outermost commit takes. -/
def commitCost (db : DB) (tx : Transaction) (order : CommitOrder) : Nat :=
  db.blobsCost (tx.store.range order.store) +
    (keysCost ((tx.store.range order.store).map Prod.fst) +
      keysCost ((tx.deleted.range order.deleted).map Prod.fst))

/-- An outermost commit. -/
theorem commitNow_returns {tx : Transaction} (order : CommitOrder) (models : db.Models rows)
    (keyFits : ∀ key value, tx.store.lookup key = some value → key.length ≤ 65535)
    (roomy : room → db.Room (db.commitCost tx order)) :
    (Session.commitNow tx order).Returns room db fun _ next =>
      ∃ sets, (sets.map fun ps : PendingSet => (ps.key, ps.value)) = tx.store.range order.store ∧
        (∀ ps ∈ sets, ps.expiresAt = tx.expiresAt ps.key ∧
          next.volumes.localVM.Holds ps.addr ps.value) ∧
        Changed db next
          ((rows.putAll sets).removeAll ((tx.deleted.range order.deleted).map Prod.fst))
          (commitLogged sets ((tx.deleted.range order.logged).map Prod.fst))
          (commitSent sets ((tx.deleted.range order.logged).map Prod.fst))
          (db.commitCost tx order) := by
  unfold Session.commitNow
  refine .bind (writeBlobs_returns tx _ models
    fun enough => (roomy enough).mono (Nat.le_add_right _ _)) ?_
  rintro sets written ⟨blobs, entriesEq, stored⟩
  have setFits : ∀ ps ∈ sets, ps.key.length ≤ 65535 := by
    intro ps mem
    have isEntry : (ps.key, ps.value) ∈ tx.store.range order.store :=
      entriesEq ▸ List.mem_map_of_mem mem
    exact keyFits ps.key ps.value ((Table.mem_range _ _ _ _).mp isEntry)
  have keysEq : (tx.store.range order.store).map Prod.fst = sets.map PendingSet.key := by
    rw [← entriesEq, List.map_map]
    rfl
  have costEq : db.commitCost tx order = db.blobsCost (tx.store.range order.store) +
      (keysCost (sets.map PendingSet.key) +
        keysCost ((tx.deleted.range order.deleted).map Prod.fst)) := by
    rw [commitCost, keysEq]
  rw [costEq] at roomy ⊢
  refine .bind (commitLocked_returns _ blobs.models setFits
    (fun ps mem => (stored ps mem).2) fun enough => blobs.room (roomy enough)) ?_
  intro _ updated locked
  refine .mono (commitLog_returns sets _ locked.models) ?_
  intro _ next logged
  refine ⟨sets, entriesEq, fun ps mem => ⟨(stored ps mem).1, ?_⟩, (blobs.trans locked).trans logged⟩
  exact (locked.keeps.trans logged.keeps).holds _ _ (stored ps mem).2

end

end DB

end BriseDB
