import BriseDB.Index.LongKeys
import BriseDB.Store.Run

/-!
# A database with a key that is too long

A database that has stored `longKey` no longer stands for a map, but it still
serves.  `Serves db found` says what it answers for the empty key; the last of the
two keys to be written decides.
-/

namespace BriseDB

open Index (longKey)

namespace DB

/-- The database is usable, and `found` is what it stores under the empty key. -/
structure Serves (db : DB) (found : Option Bytes) : Prop where
  index : Index.Usable db.hindex
  pool : db.volumes.Inv
  entry : match found with
    | none => Index.get db.hindex [] = .ok none
    | some value => ∃ addr, Index.get db.hindex [] = .ok (some (addr, 0)) ∧
        db.volumes.localVM.Holds addr value
  mode_eq : db.fsyncMode = .no
  walErr_eq : db.walErr = none

section

variable {db : DB} {found : Option Bytes} {room : Prop}

theorem Serves.stored (serves : db.Serves found) :
    db.stored [] = .ok (found.map fun value => (value, 0)) := by
  unfold DB.stored
  cases found with
  | none =>
      rw [show Index.get db.hindex [] = .ok none from serves.entry]
      rfl
  | some value =>
      rcases serves.entry with ⟨addr, getEq, holds⟩
      have returns : (VolumePool.read addr).Returns True db.volumes _ :=
        VolumePool.read_returns serves.pool holds
      rcases returns.correct [] (returns.undisturbed trivial).1 with ⟨_, resEq, rfl, -⟩
      rw [getEq]
      change (VolumePool.read addr db.volumes []).res.bind _ = _
      rw [resEq]
      rfl

/-- A database without the empty key. -/
theorem Models.serves {rows : Rows} (models : db.Models rows) (noRow : rows [] = none)
    (mode_eq : db.fsyncMode = .no) : db.Serves none where
  index := by
    rcases models.index with ⟨_, _, layout, _⟩
    exact layout.usable
  pool := models.pool
  entry := by
    have getEq := get_index_eq models []
    rw [noRow] at getEq
    exact getEq
  mode_eq := mode_eq
  walErr_eq := models.logOK.walErr_eq

/-- What the empty key stands for after one of the two keys has been written. -/
def answer (key : Key) (value : Bytes) : Option Bytes :=
  if key = [] then some value else none

theorem longKey_ne : longKey ≠ [] := by
  intro same
  have lengthEq := congrArg List.length same
  rw [Index.length_longKey] at lengthEq
  cases lengthEq

theorem answer_nil (value : Bytes) : answer [] value = some value :=
  rfl

theorem answer_longKey (value : Bytes) : answer longKey value = none :=
  if_neg longKey_ne

/-- `next` is a later state of `db` that serves `found`; at most `cost` bytes were
taken. -/
structure Serves.After (db next : DB) (found : Option Bytes) (cost : Nat) : Prop where
  serves : next.Serves found
  keeps : db.volumes.localVM.Extends next.volumes.localVM
  factor_eq : next.volumes.replicationFactor = db.volumes.replicationFactor
  room : ∀ bytes, db.Room (cost + bytes) → next.Room bytes

theorem Serves.After.refl (serves : db.Serves found) : After db db found 0 where
  serves := serves
  keeps := .refl _
  factor_eq := rfl
  room bytes roomy := (Nat.zero_add bytes) ▸ roomy

theorem Serves.After.trans {next last : DB} {early late : Nat} {middle : Option Bytes}
    (left : After db next middle early) (right : After next last found late) :
    After db last found (early + late) where
  serves := right.serves
  keeps := left.keeps.trans right.keeps
  factor_eq := right.factor_eq.trans left.factor_eq
  room bytes roomy := right.room bytes (left.room _ (Nat.add_assoc early late bytes ▸ roomy))

/-- Changes outside index and volumes that keep the log working are not seen. -/
theorem Serves.unseen (serves : db.Serves found) {next : DB} (index_eq : next.hindex = db.hindex)
    (volumes_eq : next.volumes = db.volumes) (mode_eq : next.fsyncMode = db.fsyncMode)
    (walErr_eq : next.walErr = db.walErr) : After db next found 0 where
  serves :=
    { index := index_eq ▸ serves.index
      pool := volumes_eq ▸ serves.pool
      entry := by
        have entry := serves.entry
        rw [← index_eq, ← volumes_eq] at entry
        exact entry
      mode_eq := mode_eq.trans serves.mode_eq
      walErr_eq := walErr_eq.trans serves.walErr_eq }
  keeps := volumes_eq ▸ .refl _
  factor_eq := congrArg VolumePool.replicationFactor volumes_eq
  room bytes roomy := by
    rw [Nat.zero_add] at roomy
    rw [Room, index_eq, volumes_eq]
    exact roomy

/-- The last of the two keys decides. -/
theorem Serves.index_set (serves : db.Serves found) {key : Key} (isKey : key = [] ∨ key = longKey)
    {addr : NeedleAddr} {value : Bytes} (holds : db.volumes.localVM.Holds addr value)
    (roomy : room → db.Room (indexCost key)) :
    (onIndex (Index.set key addr 0)).Returns room db fun _ next =>
      After db next (answer key value) (indexCost key) := by
  have after : ∀ hindex : Index.HashIndex, hindex.f.length = db.hindex.f.length + indexCost key →
      ({ db with hindex := hindex } : DB).Serves (answer key value) →
      After db { db with hindex := hindex } (answer key value) (indexCost key) := by
    intro hindex lengthEq nextServes
    refine ⟨nextServes, .refl _, rfl, fun bytes enough => ?_⟩
    refine ⟨?_, (enough.mono (Nat.le_add_left _ _)).2⟩
    change hindex.f.length + bytes ≤ _
    rw [lengthEq, Nat.add_assoc]
    exact enough.1
  rcases isKey with rfl | rfl
  · refine .mono (.zoom (serves.index.set_found (by decide) addr 0
      fun enough => (roomy enough).1)) ?_
    rintro _ _ ⟨hindex, rfl, usable, getEq, lengthEq⟩
    exact after hindex lengthEq
      ⟨usable, serves.pool, ⟨addr, getEq, holds⟩, serves.mode_eq, serves.walErr_eq⟩
  · refine .mono (.zoom (serves.index.set_longKey addr 0 fun enough => ?_)) ?_
    · rw [← Index.length_longKey]
      exact (roomy enough).1
    · rintro _ _ ⟨hindex, rfl, usable, getEq, lengthEq⟩
      refine after hindex lengthEq ⟨usable, serves.pool, ?_, serves.mode_eq,
        serves.walErr_eq⟩
      rw [answer_longKey]
      exact getEq

theorem Serves.setExpiry (serves : db.Serves found) (key : Key) (cached : Option Time) :
    (setExpiry key cached).Returns room db fun _ next => After db next found 0 :=
  .modify (serves.unseen rfl rfl rfl rfl)

theorem Serves.writeWAL (serves : db.Serves found) (op : WalEntry) :
    (writeWAL op).Returns room db fun _ next => After db next found 0 := by
  unfold DB.writeWAL
  refine .bind_state ?_
  simp only [serves.mode_eq, reduceCtorEq, if_false, serves.walErr_eq]
  exact .put (serves.unseen rfl rfl serves.mode_eq.symm serves.walErr_eq.symm)

theorem Serves.fanout (serves : db.Serves found) (e : WalEntry) :
    (fanout e).Returns room db fun _ next => After db next found 0 :=
  .modify (serves.unseen rfl rfl rfl rfl)

theorem Serves.write (serves : db.Serves found) {value : Bytes}
    (roomy : room → db.Room (db.volumes.cost value)) :
    (onVolumes (VolumePool.write value)).Returns room db fun addr next =>
      After db next found (db.volumes.cost value) ∧ next.volumes.localVM.Holds addr value := by
  refine .mono (.zoom (VolumePool.write_returns serves.pool fun enough => (roomy enough).2)) ?_
  rintro addr _ ⟨volumes, rfl, stored⟩
  refine ⟨⟨⟨serves.index, stored.inv, ?_, serves.mode_eq, serves.walErr_eq⟩, stored.keeps,
    stored.factor_eq, fun bytes enough => ?_⟩, stored.holds⟩
  · cases found with
    | none => exact serves.entry
    | some old =>
        rcases serves.entry with ⟨oldAddr, getEq, holds⟩
        exact ⟨oldAddr, getEq, stored.keeps.holds _ _ holds⟩
  · exact ⟨(enough.mono (Nat.le_add_left _ _)).1, stored.room bytes enough.2⟩

/-- Log a record and send one. -/
theorem Serves.record (serves : db.Serves found) (logged sent : WalEntry) :
    (DB.writeWAL logged >>= fun _ => DB.fanout sent).Returns room db fun _ next =>
      After db next found 0 :=
  .bind (serves.writeWAL logged) fun _ _ log =>
    Exec.Returns.mono (log.serves.fanout sent) fun _ _ sent => log.trans sent

/-- `Set` of one of the two keys. -/
theorem Serves.setNow (serves : db.Serves found) {key : Key} (isKey : key = [] ∨ key = longKey)
    {value : Bytes} (roomy : room → db.Room (db.volumes.cost value + indexCost key)) :
    (Session.setNow key value).Returns room db fun _ next =>
      After db next (answer key value) (db.volumes.cost value + indexCost key) := by
  unfold Session.setNow Session.setIndexFirst
  refine .bind (.wrap (serves.write fun enough =>
    (roomy enough).mono (Nat.le_add_right _ _))) ?_
  rintro addr written ⟨wrote, holds⟩
  refine .bind (.bind (.wrap (wrote.serves.index_set isKey holds
    fun enough => wrote.room _ (roomy enough))) fun _ _ set =>
      Exec.Returns.mono (set.serves.setExpiry key none) fun _ _ cached => set.trans cached) ?_
  intro _ indexed set
  exact .mono (set.serves.record _ _) fun _ _ sent => (wrote.trans set).trans sent

theorem Serves.setExpiryFirst (serves : db.Serves found) {key : Key}
    (isKey : key = [] ∨ key = longKey) {addr : NeedleAddr} {value : Bytes} (context : String)
    (cached : Option Time) (holds : db.volumes.localVM.Holds addr value)
    (roomy : room → db.Room (indexCost key)) :
    (Session.setExpiryFirst context key addr 0 cached).Returns room db fun _ next =>
      After db next (answer key value) (indexCost key) := by
  refine .bind (serves.setExpiry key cached) fun _ _ first => ?_
  refine .mono (.wrap (first.serves.index_set isKey
    (first.keeps.holds _ _ holds) fun enough => first.room _ ?_)) fun _ _ set => ?_
  · rw [Nat.zero_add]
    exact roomy enough
  · exact Nat.zero_add (indexCost key) ▸ first.trans set

/-- The locked section of a commit that writes the two keys. -/
theorem Serves.commitLocked (serves : db.Serves found) {sets : List Session.PendingSet}
    (areKeys : ∀ ps ∈ sets, (ps.key = [] ∨ ps.key = longKey) ∧ ps.expiresAt = 0 ∧
      db.volumes.localVM.Holds ps.addr ps.value)
    (roomy : room → db.Room (keysCost (sets.map Session.PendingSet.key))) :
    (Session.commitLocked sets []).Returns room db fun _ next =>
      After db next (sets.foldl (fun _ ps => answer ps.key ps.value) found)
        (keysCost (sets.map Session.PendingSet.key)) := by
  refine .bind (.each (fun done mid =>
      After db mid (done.foldl (fun _ ps => answer ps.key ps.value) found)
        (keysCost (done.map Session.PendingSet.key))) ?_ (.refl serves)) fun _ _ locked =>
    Exec.Returns.pure locked
  intro before ps later mid split after
  rcases areKeys ps (by simp [split]) with ⟨isKey, noExpiry, holds⟩
  rw [noExpiry]
  refine .mono (after.serves.setExpiryFirst isKey _ _ (after.keeps.holds _ _ holds)
    fun enough => after.room _ ((roomy enough).mono ?_)) ?_
  · rw [split]
    simp only [keysCost, List.map_append, List.map_cons, List.sum_append, List.sum_cons]
    omega
  · intro _ next set
    rw [List.foldl_append, List.map_append, keysCost_append]
    exact after.trans set

/-- The last part of a commit. -/
theorem Serves.commitLog (serves : db.Serves found) (sets : List Session.PendingSet) :
    (Session.commitLog sets []).Returns room db fun _ next => After db next found 0 := by
  refine .bind (.each (fun _ mid => After db mid found 0) ?_ (.refl serves))
    fun _ _ logged => .pure logged
  intro _ ps _ mid _ after
  exact .mono (after.serves.record _ _) fun _ _ sent => after.trans sent

/-- A commit that writes the two keys. -/
theorem Models.serves_commit {rows : Rows} {tx : Transaction} {order : CommitOrder}
    (models : db.Models rows) (noRow : rows [] = none) (mode_eq : db.fsyncMode = .no)
    (areKeys : ∀ entry ∈ tx.store.range order.store, entry.1 = [] ∨ entry.1 = longKey)
    (noExpiry : ∀ key, tx.expiresAt key = 0) (noDeletes : tx.deleted = ∅)
    (roomy : room → db.Room (db.commitCost tx order)) :
    (Session.commitNow tx order).Returns room db fun _ next =>
      next.Serves ((tx.store.range order.store).foldl (fun _ entry => answer entry.1 entry.2)
        none) := by
  have nothing : ∀ order, (tx.deleted.range order).map Prod.fst = [] := by
    intro order
    rw [noDeletes, Table.map_fst_range]
    exact List.perm_nil.mp (order.perm [])
  unfold Session.commitNow
  rw [nothing, nothing]
  refine .bind (writeBlobs_returns tx _ models
    fun enough => (roomy enough).mono (Nat.le_add_right _ _)) ?_
  rintro sets written ⟨blobs, entriesEq, stored⟩
  have serves : written.Serves none := by
    refine blobs.models.serves noRow ?_
    rcases blobs with ⟨_, effect, -⟩
    exact effect.mode_eq.trans mode_eq
  have keysEq : (tx.store.range order.store).map Prod.fst = sets.map Session.PendingSet.key := by
    rw [← entriesEq, List.map_map]
    rfl
  rw [← entriesEq] at areKeys ⊢
  rw [List.foldl_map]
  refine .bind (serves.commitLocked (fun ps isSet => ⟨?_, ?_, (stored ps isSet).2⟩)
    fun enough => blobs.room ((roomy enough).mono ?_)) ?_
  · exact areKeys (ps.key, ps.value) (List.mem_map_of_mem isSet)
  · rw [(stored ps isSet).1, noExpiry]
  · rw [commitCost, keysEq]
    omega
  · intro _ locked after
    exact .mono (after.serves.commitLog sets) fun _ _ logged => logged.serves

end

end DB

/-- A new database that leaves syncing to the operating system. -/
def History.unsynced : History :=
  .undisturbed ⟨0, 0, 1, 0, .no⟩ []

theorem History.unsynced_fresh :
    DB.Fresh History.unsynced.opened.state [] History.unsynced.opt :=
  (show History.unsynced.Small .no from rfl).opened.2

end BriseDB
