import BriseDB.Index.Misaligned
import BriseDB.Store.Run

/-!
# A database that cannot list its keys

Once `overlongKey` has been set, `ForEach` visits nothing.  `Count`, `Keys` and `Scan` do not
look at its error, so they answer as if there were no keys, while `Get` finds all the other ones.
-/

namespace BriseDB

open Index (overlongKey)

/-- `Get` finds the key with the value, and `ForEach` visits nothing. -/
structure DB.Blind (db : DB) (key : Key) (value : Bytes) : Prop where
  pool : db.volumes.Inv
  mode_eq : db.fsyncMode = .no
  walErr_eq : db.walErr = none
  found : ∃ addr, Index.get db.hindex key = .ok (some (addr, 0)) ∧
    db.volumes.localVM.Holds addr value
  visits : ∀ now order, ∃ cause, Index.forEach db.hindex now order = .ok ⟨[], some cause⟩

section

variable {db : DB} {rows : Rows} {room : Prop} {key : Key} {value : Bytes}

theorem DB.Blind.unseen (blind : db.Blind key value) {next : DB}
    (index_eq : next.hindex = db.hindex)
    (volumes_eq : next.volumes = db.volumes) (mode_eq : next.fsyncMode = db.fsyncMode)
    (walErr_eq : next.walErr = db.walErr) : next.Blind key value := by
  refine ⟨volumes_eq ▸ blind.pool, mode_eq.trans blind.mode_eq, walErr_eq.trans blind.walErr_eq, ?_,
    index_eq ▸ blind.visits⟩
  rw [index_eq, volumes_eq]
  exact blind.found

theorem DB.Blind.record (blind : db.Blind key value) (logged sent : WalEntry) :
    (DB.writeWAL logged >>= fun _ => DB.fanout sent).Returns room db fun _ next =>
      next.Blind key value := by
  have logs : (DB.writeWAL logged).Returns room db fun _ next => next.Blind key value := by
    unfold DB.writeWAL
    refine .bind_state ?_
    simp only [blind.mode_eq, reduceCtorEq, if_false, blind.walErr_eq]
    exact .put (blind.unseen rfl rfl blind.mode_eq.symm blind.walErr_eq.symm)
  refine .bind logs fun _ next nextBlind => ?_
  exact .modify (nextBlind.unseen rfl rfl rfl rfl)

theorem DB.Blind.get_eq (blind : db.Blind key value) (now : Time) :
    (Session.get key now ⟨db, []⟩ []).res = .ok (some value) := by
  rcases blind.found with ⟨addr, getEq, holds⟩
  have live : ¬ Session.expiredAt now 0 := fun expired => absurd expired.1 (by decide)
  have returns : (Session.getNow key now).Returns True db fun found _ => found = some value := by
    refine .bind_ask getEq ?_
    simp only [if_neg live]
    refine .bind_attempt (.zoom (VolumePool.read_returns blind.pool holds)) ?_
    rintro _ _ ⟨_, rfl, rfl, -⟩
    exact .pure rfl
  have called : (Session.get key now).Returns True ⟨db, []⟩ fun found _ => found = some value :=
    Exec.Returns.bind_state (.mono (.zoom returns)
      fun _ _ ⟨_, _, foundEq⟩ => foundEq)
  rcases called.correct [] (called.undisturbed trivial).1 with ⟨_, resEq, rfl⟩
  exact resEq

/-- `Set` of the key that ends the iteration. -/
theorem DB.Models.set_overlongKey (models : db.Models rows) {row : Row}
    (isRow : rows key = some row)
    (permanent : row.expiresAt = 0) (notEmpty : key ≠ []) (mode_eq : db.fsyncMode = .no)
    (few : db.hindex.entryCount + 1 < Index.forEachThreshold) {other : Bytes}
    (roomy : room → db.Room (db.volumes.cost other + DB.indexCost overlongKey)) :
    (Session.setNow overlongKey other).Returns room db fun _ next => next.Blind key row.value := by
  unfold Session.setNow Session.setIndexFirst
  refine .bind (DB.write_blob_returns models roomy _) ?_
  rintro addr written ⟨blobEffect, -⟩
  rcases blobEffect.models.index with ⟨stored, log, layout, -, -⟩
  have indexed : (DB.onIndex (Index.set overlongKey addr 0)).Returns room written fun _ next =>
      next.Blind key row.value := by
    refine .mono (.zoom (layout.set_overlongKey addr 0
      fun enough => (blobEffect.room _ (roomy enough)).1)) ?_
    rintro _ _ ⟨hindex, rfl, misaligned⟩
    refine ⟨blobEffect.models.pool, blobEffect.mode_eq.trans mode_eq,
      blobEffect.models.logOK.walErr_eq, ⟨row.addr, ?_, blobEffect.models.holds key row isRow⟩, ?_⟩
    · have isEntry := DB.get_index_eq blobEffect.models key
      rw [show (DB.Change.blob db rows other).rows key = some row from isRow] at isEntry
      rw [misaligned.get_eq key notEmpty, isEntry, ← permanent]
      rfl
    · intro now order
      have small : hindex.entryCount < Index.forEachThreshold := by
        rw [misaligned.count_eq, Int64.toInt_inj.mp blobEffect.count_eq]
        exact few
      rcases misaligned.forEachSmall_eq now order with ⟨cause, visitsEq⟩
      exact ⟨cause, (if_pos small).trans visitsEq⟩
  refine .bind (.bind (.wrap indexed) fun _ next blind => ?_)
    fun _ next blind => DB.Blind.record blind _ _
  exact .modify (blind.unseen rfl rfl rfl rfl)

end

/-- A new database in which a key is set, and then the one that ends the iteration. -/
def History.blinded : History :=
  .undisturbed ⟨0, 0, 1, 0, .no⟩
    [(.epoch, .call 0 (.set [107] [118])), (.epoch, .call 0 (.set overlongKey [118]))]

theorem History.blinded_final : History.blinded.final.db.Blind [107] [118] := by
  have small : History.blinded.Small .no := rfl
  refine (@History.Small.final _ _ small (fun w => w.db.Blind [107] [118]) fun db fresh => ?_).2.2
  have single : History.blinded.opt.replicationFactor ≤ 1 := by decide
  refine .bind (Call.Direct.event (Call.direct_set (DB.setNow_returns fresh.models
    (by decide) fun _ => fresh.roomAlone _ ?_)) 0) ?_
  · rw [fresh.cost single]
    decide +kernel
  rintro _ _ ⟨next, rfl, addr, effect⟩
  have room : next.Room (next.volumes.cost [118] + DB.indexCost overlongKey) := by
    refine effect.room _ (fresh.roomAlone _ ?_)
    rw [VolumePool.cost, effect.factor_eq, ← VolumePool.cost, DB.indexCost,
      Index.length_overlongKey]
    change DB.freshBytes + (db.volumes.cost [118] + DB.indexCost [107] + _) ≤ _
    rw [fresh.cost single]
    decide +kernel
  have few : next.hindex.entryCount + 1 < Index.forEachThreshold := by
    have count : next.hindex.entryCount = 1 := by
      refine Int64.toInt_inj.mp (effect.count_eq.trans ?_)
      rw [fresh.count_eq]
      rfl
    rw [count]
    decide
  have models : next.Models (Function.update (fun _ => none) [107] (some ⟨addr, 0, [118]⟩)) :=
    effect.models
  have blinds : (Session.setNow overlongKey [118]).Returns True next fun _ last =>
      last.Blind [107] [118] :=
    models.set_overlongKey (Function.update_self [107] _ _) rfl (by decide)
      (effect.mode_eq.trans fresh.mode_eq) few fun _ => room
  refine .bind (Call.Direct.event (Call.direct_set blinds) 0) ?_
  rintro _ _ ⟨last, rfl, blind⟩
  exact .pure blind

end BriseDB
